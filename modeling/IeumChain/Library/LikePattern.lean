import IeumChain.Library.Text
import Mathlib.Data.List.Infix

/-!
# Patterns of the LIKE operator

A pattern has wildcards for any characters and for one character, and an escape character that
takes the next one literally. Letters are compared without case, but only those of ASCII. The
operands are read up to the first NUL.
-/
namespace LikePattern

open Text

inductive Token
  | any
  | one
  | char (c : Char)
  deriving DecidableEq

/-- What a pattern says, after an escape character or not; nothing if it ends within an escape. -/
def tokens (escape : Char) : Bool → List Char → Option (List Token)
  | false, [] => some []
  | true, [] => none
  | true, c :: rest => (tokens escape false rest).map (.char c :: ·)
  | false, c :: rest =>
      if c = '%' then (tokens escape false rest).map (.any :: ·)
      else if c = escape then tokens escape true rest
      else if c = '_' then (tokens escape false rest).map (.one :: ·)
      else (tokens escape false rest).map (.char c :: ·)

def accepts : List Token → List Char → Bool
  | [], text => text.isEmpty
  | .any :: rest, text => text.tails.any (accepts rest)
  | .one :: rest, text =>
      match text with
      | [] => false
      | _ :: text => accepts rest text
  | .char c :: rest, text =>
      match text with
      | [] => false
      | d :: text => lowerChar c = lowerChar d && accepts rest text

def upToNul : List Char → List Char
  | [] => []
  | c :: rest => if c = '\x00' then [] else c :: upToNul rest

def like (escape : Char) (pattern text : List Char) : Bool :=
  match tokens escape false (upToNul pattern) with
  | none => false
  | some parts => accepts parts (upToNul text)

/-- `replace`, for one character. -/
def replaceChar (c : Char) (replacement chars : List Char) : List Char :=
  chars.flatMap fun d => if d = c then replacement else [d]

def escapeWildcards (chars : List Char) : List Char :=
  replaceChar '_' ['\\', '_'] (replaceChar '%' ['\\', '%'] (replaceChar '\\' ['\\', '\\'] chars))

/-- The pattern that is meant to find what starts with the characters. -/
def startPattern (chars : List Char) : List Char := escapeWildcards chars ++ ['%']

variable {chars text : List Char} {c : Char}

/-! ## What a pattern finds -/

def Special (c : Char) : Prop := c = '\\' ∨ c = '%' ∨ c = '_'

instance (c : Char) : Decidable (Special c) := inferInstanceAs (Decidable (_ ∨ _ ∨ _))

theorem escapeWildcards_cons (c : Char) (chars : List Char) : escapeWildcards (c :: chars) =
    (if Special c then ['\\', c] else [c]) ++ escapeWildcards chars := by
  unfold escapeWildcards replaceChar Special
  by_cases hbackslash : c = '\\'
  · subst hbackslash
    simp
  · by_cases hpercent : c = '%'
    · subst hpercent
      simp
    · by_cases hunderscore : c = '_'
      · subst hunderscore
        simp
      · simp [hbackslash, hpercent, hunderscore]

theorem tokens_escapeWildcards (rest : List Char) :
    tokens '\\' false (escapeWildcards chars ++ rest) =
      (tokens '\\' false rest).map (chars.map Token.char ++ ·) := by
  induction chars with
  | nil => simp [escapeWildcards, replaceChar]
  | cons c chars ih =>
      rw [escapeWildcards_cons, List.append_assoc]
      by_cases hspecial : Special c
      · rw [if_pos hspecial]
        simp only [List.cons_append, List.nil_append, tokens, Char.reduceEq, if_false, if_true, ih,
          Option.map_map]
        rfl
      · rw [if_neg hspecial]
        simp only [Special, not_or] at hspecial
        simp only [List.cons_append, List.nil_append, tokens, hspecial, if_false, ih,
          Option.map_map]
        rfl

theorem accepts_chars (rest : List Token) : accepts (chars.map Token.char ++ rest) text = true ↔
    ∃ front tail, text = front ++ tail ∧ front.map lowerChar = chars.map lowerChar ∧
      accepts rest tail = true := by
  induction chars generalizing text with
  | nil => simp
  | cons c chars ih =>
      cases text with
      | nil => simp [accepts]
      | cons d text =>
          simp only [List.map_cons, List.cons_append, accepts, Bool.and_eq_true, decide_eq_true_eq,
            ih]
          constructor
          · rintro ⟨hc, front, tail, rfl, hfront, htail⟩
            exact ⟨d :: front, tail, rfl, by rw [List.map_cons, hfront, hc], htail⟩
          · rintro ⟨front, tail, htext, hfront, htail⟩
            cases front with
            | nil => cases hfront
            | cons d' front =>
                rw [List.map_cons, List.cons.injEq] at hfront
                rw [List.cons_append, List.cons.injEq] at htext
                obtain ⟨rfl, rfl⟩ := htext
                exact ⟨hfront.1.symm, front, tail, rfl, hfront.2, htail⟩

theorem accepts_any (text : List Char) : accepts [.any] text = true := by
  rw [accepts, List.any_eq_true]
  exact ⟨[], (List.mem_tails [] text).2 List.nil_suffix, rfl⟩

theorem accepts_start : accepts (chars.map Token.char ++ [.any]) text = true ↔
    chars.map lowerChar <+: text.map lowerChar := by
  rw [accepts_chars]
  constructor
  · rintro ⟨front, tail, rfl, hfront, -⟩
    exact ⟨tail.map lowerChar, by rw [List.map_append, hfront]⟩
  · rintro ⟨rest, hrest⟩
    obtain ⟨front, tail, rfl, hfront, -⟩ := List.map_eq_append_iff.1 hrest.symm
    exact ⟨front, tail, rfl, hfront, accepts_any tail⟩

theorem accepts_whole : accepts (chars.map Token.char) text = true ↔
    chars.map lowerChar = text.map lowerChar := by
  have h : accepts (chars.map Token.char ++ []) text = true ↔ _ := accepts_chars []
  rw [List.append_nil] at h
  rw [h]
  constructor
  · rintro ⟨front, tail, rfl, hfront, htail⟩
    rw [accepts, List.isEmpty_iff] at htail
    rw [htail, List.append_nil, hfront]
  · intro heq
    exact ⟨text, [], (List.append_nil text).symm, heq.symm, rfl⟩

/-! ## Up to the first NUL -/

theorem upToNul_append (h : '\x00' ∉ chars) (rest : List Char) :
    upToNul (chars ++ rest) = chars ++ upToNul rest := by
  induction chars with
  | nil => rfl
  | cons c chars ih =>
      rw [List.mem_cons, not_or] at h
      rw [List.cons_append, upToNul, if_neg fun hnul => h.1 hnul.symm, ih h.2, List.cons_append]

theorem upToNul_of_notMem (h : '\x00' ∉ chars) : upToNul chars = chars := by
  have happend := upToNul_append h []
  rwa [List.append_nil, upToNul, List.append_nil] at happend

theorem upToNul_append_of_mem (h : '\x00' ∈ chars) (rest : List Char) :
    upToNul (chars ++ rest) = upToNul chars := by
  induction chars with
  | nil => cases h
  | cons c chars ih =>
      rw [List.cons_append, upToNul, upToNul]
      split_ifs with hnul
      · rfl
      · rcases List.mem_cons.1 h with heq | hmem
        · exact absurd heq.symm hnul
        · rw [ih hmem]

theorem prefix_upToNul (chars : List Char) : upToNul chars <+: chars := by
  induction chars with
  | nil => exact List.prefix_rfl
  | cons c chars ih =>
      rw [upToNul]
      split_ifs
      · exact List.nil_prefix
      · exact List.prefix_cons_inj c |>.2 ih

/-- The pattern loses its wildcard when there is a NUL before it. -/
theorem upToNul_startPattern (chars : List Char) : upToNul (startPattern chars) =
    escapeWildcards (upToNul chars) ++ if '\x00' ∈ chars then [] else ['%'] := by
  unfold startPattern
  induction chars with
  | nil => rfl
  | cons c chars ih =>
      rw [escapeWildcards_cons, List.append_assoc]
      by_cases hnul : c = '\x00'
      · subst hnul
        have hplain : ¬Special '\x00' := by decide
        rw [if_neg hplain, if_pos List.mem_cons_self]
        rfl
      · have hmem : '\x00' ∈ c :: chars ↔ '\x00' ∈ chars := by
          rw [List.mem_cons, or_iff_right fun heq => hnul heq.symm]
        have hshort : '\x00' ∉ (if Special c then ['\\', c] else [c]) := by
          split_ifs <;> simp [Ne.symm hnul]
        rw [upToNul_append hshort, ih, upToNul, if_neg hnul, escapeWildcards_cons,
          List.append_assoc]
        simp only [hmem]

/-- What the pattern takes for a text that starts with the characters. -/
def Resembles (chars text : List Char) : Prop :=
  if '\x00' ∈ chars then (upToNul chars).map lowerChar = (upToNul text).map lowerChar
  else chars.map lowerChar <+: text.map lowerChar

theorem lowerChar_eq_nul {c : Char} (h : lowerChar c = '\x00') : c = '\x00' := by
  by_cases hc : 'A' ≤ c ∧ c ≤ 'Z'
  · have hascii : ∀ m < 91, lowerChar (Char.ofNat m) = '\x00' → Char.ofNat m = '\x00' := by
      decide
    have hsmall : c.toNat < 91 := Nat.lt_of_le_of_lt hc.2 (by decide)
    have hcode := hascii c.toNat hsmall
    rw [Char.ofNat_toNat] at hcode
    exact hcode h
  · rwa [lowerChar, if_neg hc] at h

theorem prefix_upToNul_iff (h : '\x00' ∉ chars) :
    chars.map lowerChar <+: (upToNul text).map lowerChar ↔
      chars.map lowerChar <+: text.map lowerChar := by
  constructor
  · exact fun hfront => hfront.trans ((prefix_upToNul text).map lowerChar)
  · rintro ⟨rest, hrest⟩
    obtain ⟨front, tail, rfl, hfront, -⟩ := List.map_eq_append_iff.1 hrest.symm
    have hkeep : '\x00' ∉ front := by
      intro hnul
      have hmem : lowerChar '\x00' ∈ chars.map lowerChar := hfront ▸ List.mem_map_of_mem hnul
      obtain ⟨d, hd, hlower⟩ := List.mem_map.1 hmem
      exact h (lowerChar_eq_nul (hlower.trans (by decide)) ▸ hd)
    rw [upToNul_append hkeep, List.map_append, hfront]
    exact List.prefix_append _ _

/-- What LIKE finds with the pattern. -/
theorem like_startPattern (chars text : List Char) :
    like '\\' (startPattern chars) text = true ↔ Resembles chars text := by
  rw [like, upToNul_startPattern, tokens_escapeWildcards, Resembles]
  split_ifs with hnul
  · simpa [tokens] using accepts_whole
  · rw [upToNul_of_notMem hnul, ← prefix_upToNul_iff hnul]
    simpa [tokens] using accepts_start

theorem resembles_of_prefix (h : chars <+: text) : Resembles chars text := by
  unfold Resembles
  obtain ⟨rest, rfl⟩ := h
  split_ifs with hnul
  · rw [upToNul_append_of_mem hnul]
  · exact (List.prefix_append chars rest).map lowerChar

end LikePattern
