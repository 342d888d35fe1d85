import Mathlib.Data.List.Basic
import Mathlib.Data.Nat.Notation
import Mathlib.Tactic.IntervalCases
import Mathlib.Tactic.Ring

/-!
# Byte strings: fixed-width numbers, texts and hexadecimal

Numbers are written big-endian in a fixed number of bytes, texts in UTF-8. A
text may be preceded by its length in eight bytes, which makes concatenations
readable again; without the length it is not.
-/
namespace ByteCodec

abbrev Bytes := List UInt8

/-- The last `width` base-256 digits of a number, most significant first. -/
def beBytes : ℕ → ℕ → Bytes
  | 0, _ => []
  | width + 1, n => beBytes width (n / 256) ++ [UInt8.ofNat n]

def utf8 (s : String) : Bytes := s.toByteArray.data.toList

/-- A text preceded by its byte length. -/
def pushText (s : String) : Bytes := beBytes 8 (utf8 s).length ++ utf8 s

@[simp] theorem length_beBytes (width n : ℕ) : (beBytes width n).length = width := by
  induction width generalizing n with
  | zero => rfl
  | succ width ih => simp [beBytes, ih]

/-- Fixed-width numbers that fit are determined by their bytes. -/
theorem beBytes_inj {width n m : ℕ} (hn : n < 256 ^ width) (hm : m < 256 ^ width)
    (h : beBytes width n = beBytes width m) : n = m := by
  induction width generalizing n m with
  | zero =>
      simp only [pow_zero, Nat.lt_one_iff] at hn hm
      rw [hn, hm]
  | succ width ih =>
      simp only [beBytes] at h
      obtain ⟨hhigh, hlow⟩ := List.append_inj' h rfl
      have hq : n / 256 = m / 256 := by
        apply ih _ _ hhigh
        · rw [pow_succ, mul_comm] at hn
          exact Nat.div_lt_of_lt_mul hn
        · rw [pow_succ, mul_comm] at hm
          exact Nat.div_lt_of_lt_mul hm
      have hr : n % 256 = m % 256 := by
        have := congrArg UInt8.toNat (List.head_eq_of_cons_eq hlow)
        simpa using this
      omega

theorem beBytes_append_inj {width n m : ℕ} {a b : Bytes} (hn : n < 256 ^ width)
    (hm : m < 256 ^ width) (h : beBytes width n ++ a = beBytes width m ++ b) :
    n = m ∧ a = b := by
  obtain ⟨hnum, hrest⟩ := List.append_inj h (by simp)
  exact ⟨beBytes_inj hn hm hnum, hrest⟩

theorem utf8_inj {s t : String} (h : utf8 s = utf8 t) : s = t := by
  apply String.toByteArray_inj.1
  apply ByteArray.ext
  exact Array.toList_inj.1 h

theorem utf8_append (s t : String) : utf8 (s ++ t) = utf8 s ++ utf8 t := by
  simp [utf8]

theorem utf8_ofList (chars : List Char) :
    utf8 (String.ofList chars) = chars.flatMap String.utf8EncodeChar := by
  simp [utf8, List.utf8Encode]

@[simp] theorem utf8_length (s : String) : (utf8 s).length = s.utf8ByteSize := by
  simp [utf8]

/-- Two length-prefixed texts followed by anything can be split again. -/
theorem pushText_append_inj {s t : String} {a b : Bytes} (hs : s.utf8ByteSize < 2 ^ 64)
    (ht : t.utf8ByteSize < 2 ^ 64) (h : pushText s ++ a = pushText t ++ b) :
    s = t ∧ a = b := by
  simp only [pushText, List.append_assoc] at h
  obtain ⟨hlen, hrest⟩ := beBytes_append_inj (by simpa using hs) (by simpa using ht) h
  obtain ⟨htext, hab⟩ := List.append_inj hrest hlen
  exact ⟨utf8_inj htext, hab⟩

theorem pushText_inj {s t : String} (h : pushText s = pushText t) : s = t := by
  have hlength := congrArg List.length h
  simp only [pushText, List.length_append, length_beBytes, Nat.add_left_cancel_iff] at hlength
  simp only [pushText] at h
  exact utf8_inj (List.append_inj_right h (by simp))

/-- Texts one after the other, with nothing between them. -/
def joined (texts : List String) : String := texts.foldr (· ++ ·) ""

@[simp] theorem joined_nil : joined [] = "" := rfl

@[simp] theorem joined_cons (s : String) (texts : List String) :
    joined (s :: texts) = s ++ joined texts := rfl

theorem joined_append (texts texts' : List String) :
    joined (texts ++ texts') = joined texts ++ joined texts' := by
  induction texts with
  | nil => simp
  | cons s texts ih => simp [ih, String.append_assoc]

theorem utf8_joined (texts : List String) : utf8 (joined texts) = texts.flatMap utf8 := by
  induction texts with
  | nil => rfl
  | cons s texts ih => rw [joined_cons, utf8_append, ih, List.flatMap_cons]

/-- Entries written one after the other can be told apart when each can be split off what
follows it. -/
theorem flatMap_inj {α : Type} {encode : α → Bytes} {l m : List α}
    (hl : ∀ a ∈ l, encode a ≠ []) (hm : ∀ b ∈ m, encode b ≠ [])
    (hsplit : ∀ a ∈ l, ∀ b ∈ m, ∀ x y, encode a ++ x = encode b ++ y → a = b ∧ x = y)
    (h : l.flatMap encode = m.flatMap encode) : l = m := by
  induction l generalizing m with
  | nil =>
      cases m with
      | nil => rfl
      | cons b m =>
          rw [List.flatMap_nil, List.flatMap_cons, eq_comm, List.append_eq_nil_iff] at h
          exact absurd h.1 (hm b (List.mem_cons_self ..))
  | cons a l ih =>
      cases m with
      | nil =>
          rw [List.flatMap_nil, List.flatMap_cons, List.append_eq_nil_iff] at h
          exact absurd h.1 (hl a (List.mem_cons_self ..))
      | cons b m =>
          rw [List.flatMap_cons, List.flatMap_cons] at h
          obtain ⟨rfl, hrest⟩ :=
            hsplit a (List.mem_cons_self ..) b (List.mem_cons_self ..) _ _ h
          rw [ih (fun c hc => hl c (List.mem_cons_of_mem _ hc))
            (fun c hc => hm c (List.mem_cons_of_mem _ hc))
            (fun c hc d hd => hsplit c (List.mem_cons_of_mem _ hc) d (List.mem_cons_of_mem _ hd))
            hrest]

/-- Byte strings that start differently stay different whatever follows. -/
theorem take_eq_of_append_eq {n : ℕ} {a b x y : Bytes} (ha : n ≤ a.length) (hb : n ≤ b.length)
    (h : a ++ x = b ++ y) : a.take n = b.take n := by
  have htake := congrArg (List.take n) h
  rwa [List.take_append_of_le_length ha, List.take_append_of_le_length hb] at htake

/-- The digit of a number below sixteen, in lower case. -/
def hexDigit (n : ℕ) : Char :=
  if n < 10 then Char.ofNat ('0'.toNat + n) else Char.ofNat ('a'.toNat + (n - 10))

def hexValue (c : Char) : Option ℕ :=
  if '0' ≤ c ∧ c ≤ '9' then some (c.toNat - '0'.toNat)
  else if 'a' ≤ c ∧ c ≤ 'f' then some (c.toNat - 'a'.toNat + 10)
  else if 'A' ≤ c ∧ c ≤ 'F' then some (c.toNat - 'A'.toNat + 10)
  else none

def hexChars (bytes : Bytes) : List Char :=
  bytes.flatMap fun b => [hexDigit (b.toNat / 16), hexDigit (b.toNat % 16)]

def hexEncode (bytes : Bytes) : String := String.ofList (hexChars bytes)

theorem length_hexChars (bytes : Bytes) : (hexChars bytes).length = 2 * bytes.length := by
  induction bytes with
  | nil => rfl
  | cons b bytes ih =>
      rw [hexChars, List.flatMap_cons, List.length_append, ← hexChars, ih, List.length_cons]
      simp only [List.length_cons, List.length_nil]
      omega

theorem length_hexEncode (bytes : Bytes) : (hexEncode bytes).length = 2 * bytes.length := by
  rw [hexEncode, String.length_ofList, length_hexChars]

theorem mem_hexChars {c : Char} {bytes : Bytes} (h : c ∈ hexChars bytes) :
    ∃ n < 16, c = hexDigit n := by
  rw [hexChars, List.mem_flatMap] at h
  obtain ⟨b, -, hc⟩ := h
  have hb : b.toNat < 256 := b.toNat_lt
  rcases List.mem_cons.1 hc with rfl | hc
  · exact ⟨_, by omega, rfl⟩
  · rw [List.mem_singleton] at hc
    exact ⟨_, by omega, hc⟩

/-- One byte for each character. -/
theorem utf8ByteSize_ofList {chars : List Char}
    (h : ∀ c ∈ chars, (String.utf8EncodeChar c).length = 1) :
    (String.ofList chars).utf8ByteSize = chars.length := by
  rw [← utf8_length, utf8_ofList]
  induction chars with
  | nil => rfl
  | cons c chars ih =>
      have hrest := ih fun d hd => h d (List.mem_cons_of_mem _ hd)
      rw [List.flatMap_cons, List.length_append, h c (List.mem_cons_self ..), hrest,
        List.length_cons, add_comm]

/-- Hexadecimal digits take one byte each. -/
theorem utf8ByteSize_hexEncode (bytes : Bytes) :
    (hexEncode bytes).utf8ByteSize = 2 * bytes.length := by
  have hdigit : ∀ n < 16, (String.utf8EncodeChar (hexDigit n)).length = 1 := by decide
  rw [hexEncode, utf8ByteSize_ofList, length_hexChars]
  intro c hc
  obtain ⟨n, hn, rfl⟩ := mem_hexChars hc
  exact hdigit n hn

/-- Reads pairs of digits of either case; fails on any other character and on an odd length. -/
def hexDecodeChars : List Char → Option Bytes
  | [] => some []
  | [_] => none
  | hi :: lo :: rest =>
      match hexValue hi, hexValue lo, hexDecodeChars rest with
      | some h, some l, some bytes => some (UInt8.ofNat (16 * h + l) :: bytes)
      | _, _, _ => none

def hexDecode (s : String) : Option Bytes := hexDecodeChars s.toList

theorem hexValue_hexDigit {n : ℕ} (h : n < 16) : hexValue (hexDigit n) = some n := by
  interval_cases n <;> decide

theorem hexDecodeChars_hexChars (bytes : Bytes) : hexDecodeChars (hexChars bytes) = some bytes := by
  induction bytes with
  | nil => rfl
  | cons b bytes ih =>
      have hb : b.toNat < 256 := b.toNat_lt
      have hhi : b.toNat / 16 < 16 := by omega
      have hlo : b.toNat % 16 < 16 := by omega
      have hsum : 16 * (b.toNat / 16) + b.toNat % 16 = b.toNat := Nat.div_add_mod _ _
      simp only [hexChars, List.flatMap_cons, List.cons_append, List.nil_append, hexDecodeChars,
        hexValue_hexDigit hhi, hexValue_hexDigit hlo] at ih ⊢
      simp [ih, hsum]

/-- Decoding inverts encoding. -/
theorem hexDecode_hexEncode (bytes : Bytes) : hexDecode (hexEncode bytes) = some bytes := by
  simp [hexDecode, hexEncode, hexDecodeChars_hexChars]

theorem hexEncode_injective : Function.Injective hexEncode := by
  intro a b h
  have := congrArg hexDecode h
  simpa [hexDecode_hexEncode] using this

end ByteCodec
