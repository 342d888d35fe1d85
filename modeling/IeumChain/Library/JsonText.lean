import IeumChain.Library.Text

/-!
# Where a JSON text ends

A reader that follows the brackets of a text, and knows which of them stand in a string, sees
the end of a value when it is back on the outermost level. Every written value stays above the
level on which it starts, so no part of a written object is a value, and nothing but white
space can follow one.
-/
namespace JsonText

open Text

inductive Mode
  | plain
  | text
  | escape
  deriving Repr, DecidableEq

/-- How many brackets are open, and whether the reader is in a string. -/
structure Place where
  depth : ℕ
  mode : Mode
  deriving Repr, DecidableEq

def start : Place := { depth := 0, mode := .plain }

def step (s : Place) (c : Char) : Place :=
  match s.mode with
  | .plain =>
      if c = '"' then { s with mode := .text }
      else if c = '\x7b' ∨ c = '[' then { s with depth := s.depth + 1 }
      else if c = '\x7d' ∨ c = ']' then { s with depth := s.depth - 1 }
      else s
  | .text =>
      if c = '\\' then { s with mode := .escape }
      else if c = '"' then { s with mode := .plain }
      else s
  | .escape => { s with mode := .text }

def scan (s : Place) (chars : List Char) : Place := chars.foldl step s

@[simp] theorem scan_nil (s : Place) : scan s [] = s := rfl

@[simp] theorem scan_cons (s : Place) (c : Char) (chars : List Char) :
    scan s (c :: chars) = scan (step s c) chars := rfl

theorem scan_append (s : Place) (a b : List Char) : scan s (a ++ b) = scan (scan s a) b :=
  List.foldl_append ..

/-- The reader does not come below the level on the way. -/
def Stays (d : ℕ) : Place → List Char → Prop
  | s, [] => d ≤ s.depth
  | s, c :: rest => d ≤ s.depth ∧ Stays d (step s c) rest

theorem stays_append {d : ℕ} {s : Place} {a b : List Char} :
    Stays d s (a ++ b) ↔ Stays d s a ∧ Stays d (scan s a) b := by
  induction a generalizing s with
  | nil =>
      cases b with
      | nil => simp [Stays]
      | cons c rest => simp [Stays]
  | cons c a ih => simp [Stays, ih, and_assoc]

theorem Stays.scan {d : ℕ} {s : Place} {a : List Char} (h : Stays d s a) :
    d ≤ (scan s a).depth := by
  induction a generalizing s with
  | nil => exact h
  | cons c a ih => exact ih h.2

/-- The characters lead from a level back to it and never below it. -/
structure Level (chars : List Char) : Prop where
  back : ∀ d, scan ⟨d, .plain⟩ chars = ⟨d, .plain⟩
  stays : ∀ d, Stays d ⟨d, .plain⟩ chars

theorem level_nil : Level [] := ⟨fun _ => rfl, fun _ => le_rfl⟩

theorem Level.append {a b : List Char} (ha : Level a) (hb : Level b) : Level (a ++ b) := by
  refine ⟨fun d => ?_, fun d => ?_⟩
  · rw [scan_append, ha.back, hb.back]
  · rw [stays_append, ha.back]
    exact ⟨ha.stays d, hb.stays d⟩

theorem level_of_plain {chars : List Char}
    (h : ∀ c ∈ chars, ∀ d, step ⟨d, .plain⟩ c = ⟨d, .plain⟩) : Level chars := by
  induction chars with
  | nil => exact level_nil
  | cons c rest ih =>
      have hrest := ih fun a ha => h a (List.mem_cons_of_mem _ ha)
      have hc := h c (List.mem_cons_self ..)
      refine ⟨fun d => ?_, fun d => ?_⟩
      · rw [scan_cons, hc, hrest.back]
      · rw [Stays, hc]
        exact ⟨le_rfl, hrest.stays d⟩

/-- Brackets around characters that keep their level. -/
theorem Level.enclose {inner : List Char} (h : Level inner) {opening closing : Char}
    (ho : ∀ d, step ⟨d, .plain⟩ opening = ⟨d + 1, .plain⟩)
    (hc : ∀ d, step ⟨d + 1, .plain⟩ closing = ⟨d, .plain⟩) :
    Level (opening :: inner ++ [closing]) := by
  have hmono : ∀ {d s chars}, Stays (d + 1) s chars → Stays d s chars := by
    intro d s chars
    induction chars generalizing s with
    | nil => exact fun hs => Nat.le_of_succ_le hs
    | cons c rest ih => exact fun hs => ⟨Nat.le_of_succ_le hs.1, ih hs.2⟩
  refine ⟨fun d => ?_, fun d => ?_⟩
  · rw [List.cons_append, scan_cons, ho, scan_append, h.back, scan_cons, hc, scan_nil]
  · rw [List.cons_append, Stays, ho, stays_append, h.back, Stays, hc]
    exact ⟨le_rfl, hmono (h.stays (d + 1)), Nat.le_succ d, le_rfl⟩

/-! ## Written values -/

/-- A written value: it keeps its level and stands on one line. -/
structure IsJson (chars : List Char) : Prop where
  level : Level chars
  printable : ∀ c ∈ chars, 32 ≤ c.toNat

theorem isJson_nil : IsJson [] := ⟨level_nil, by simp⟩

theorem IsJson.append {a b : List Char} (ha : IsJson a) (hb : IsJson b) : IsJson (a ++ b) :=
  ⟨ha.level.append hb.level, fun c hc =>
    (List.mem_append.1 hc).elim (ha.printable c) (hb.printable c)⟩

theorem isJson_of_plain {chars : List Char}
    (h : ∀ c ∈ chars, (∀ d, step ⟨d, .plain⟩ c = ⟨d, .plain⟩) ∧ 32 ≤ c.toNat) : IsJson chars :=
  ⟨level_of_plain fun c hc => (h c hc).1, fun c hc => (h c hc).2⟩

theorem IsJson.enclose {inner : List Char} (h : IsJson inner) {opening closing : Char}
    (ho : ∀ d, step ⟨d, .plain⟩ opening = ⟨d + 1, .plain⟩)
    (hc : ∀ d, step ⟨d + 1, .plain⟩ closing = ⟨d, .plain⟩) (hop : 32 ≤ opening.toNat)
    (hcp : 32 ≤ closing.toNat) : IsJson (opening :: inner ++ [closing]) := by
  refine ⟨h.level.enclose ho hc, fun c hmem => ?_⟩
  simp only [List.cons_append, List.mem_cons, List.mem_append, List.not_mem_nil, or_false] at hmem
  rcases hmem with rfl | hmem | rfl
  · exact hop
  · exact h.printable c hmem
  · exact hcp

theorem step_hexDigit {n : ℕ} (hn : n < 16) (d : ℕ) :
    step ⟨d, .text⟩ (ByteCodec.hexDigit n) = ⟨d, .text⟩ := by
  interval_cases n <;> rfl

/-- An escaped character leads back into the string, and not below its level. -/
theorem scan_escapeChar (c : Char) (d : ℕ) :
    scan ⟨d, .text⟩ (escapeChar c) = ⟨d, .text⟩ ∧ Stays d ⟨d, .text⟩ (escapeChar c) := by
  unfold escapeChar
  split_ifs with hquote hbackslash _ _ _ _ _ hcontrol
  iterate 7 exact ⟨rfl, le_rfl, le_rfl, le_rfl⟩
  · have hescape : step (step (step (step ⟨d, .text⟩ '\\') 'u') '0') '0' = ⟨d, .text⟩ := rfl
    have hhigh := step_hexDigit (by omega : c.toNat / 16 < 16) d
    have hlow := step_hexDigit (Nat.mod_lt c.toNat (by decide : 0 < 16)) d
    constructor
    · simp only [scan_cons, scan_nil]
      rw [hescape, hhigh, hlow]
    · refine ⟨le_rfl, le_rfl, le_rfl, le_rfl, ?_⟩
      rw [hescape, Stays, hhigh, Stays, hlow]
      exact ⟨le_rfl, le_rfl, le_rfl⟩
  · have hstep : step ⟨d, .text⟩ c = ⟨d, .text⟩ := by simp [step, hquote, hbackslash]
    refine ⟨hstep, le_rfl, ?_⟩
    rw [hstep]
    exact le_rfl

theorem scan_escaped (chars : List Char) (d : ℕ) :
    scan ⟨d, .text⟩ (chars.flatMap escapeChar) = ⟨d, .text⟩ ∧
      Stays d ⟨d, .text⟩ (chars.flatMap escapeChar) := by
  induction chars with
  | nil => exact ⟨rfl, le_rfl⟩
  | cons c rest ih =>
      obtain ⟨hback, hstays⟩ := scan_escapeChar c d
      rw [List.flatMap_cons, scan_append, stays_append, hback]
      exact ⟨ih.1, hstays, ih.2⟩

theorem printable_escapeChar {c a : Char} (h : a ∈ escapeChar c) : 32 ≤ a.toNat := by
  have hdigit : ∀ n < 16, 32 ≤ (ByteCodec.hexDigit n).toNat := by
    intro n hn
    interval_cases n <;> decide
  unfold escapeChar at h
  split_ifs at h with _ _ _ _ _ _ _ hcontrol
  iterate 7
    simp only [List.mem_cons, List.not_mem_nil, or_false] at h
    rcases h with rfl | rfl <;> decide
  · simp only [List.mem_cons, List.not_mem_nil, or_false] at h
    rcases h with rfl | rfl | rfl | rfl | rfl | rfl
    iterate 4 decide
    · exact hdigit _ (by omega)
    · exact hdigit _ (Nat.mod_lt _ (by decide))
  · rw [List.mem_singleton.1 h]
    omega

theorem isJson_string (s : String) : IsJson (jsonString s) := by
  refine ⟨⟨fun d => ?_, fun d => ?_⟩, fun c hc => ?_⟩
  · rw [jsonString, List.cons_append, scan_cons, scan_append]
    have hopen : step ⟨d, .plain⟩ '"' = ⟨d, .text⟩ := rfl
    rw [hopen, (scan_escaped _ d).1]
    rfl
  · rw [jsonString, List.cons_append, Stays, stays_append]
    have hopen : step ⟨d, .plain⟩ '"' = ⟨d, .text⟩ := rfl
    rw [hopen, (scan_escaped _ d).1]
    exact ⟨le_rfl, (scan_escaped _ d).2, le_rfl, le_rfl⟩
  · simp only [jsonString, List.cons_append, List.mem_cons, List.mem_append, List.mem_flatMap,
      List.not_mem_nil, or_false] at hc
    rcases hc with rfl | ⟨_, -, hc⟩ | rfl
    · decide
    · exact printable_escapeChar hc
    · decide

theorem isJson_number (n : ℕ) : IsJson (jsonNumber n) := by
  refine isJson_of_plain fun c hc => ?_
  have hdecimal : c.isDigit = true := by
    have hall := allChars_decimal (p := Char.isDigit) (fun _ => id) n
    exact List.all_eq_true.1 hall c hc
  have hlow : 48 ≤ c.toNat := (Char.isDigit_iff_toNat.1 hdecimal).1
  have hhigh : c.toNat ≤ 57 := (Char.isDigit_iff_toNat.1 hdecimal).2
  have hne : ∀ a : Char, a.toNat < 48 ∨ 57 < a.toNat → c ≠ a := by
    rintro a ha rfl
    omega
  refine ⟨fun d => ?_, by omega⟩
  simp [step, hne '"' (by decide), hne '\x7b' (by decide), hne '[' (by decide),
    hne '\x7d' (by decide), hne ']' (by decide)]

theorem isJson_decimal (n : ℕ) : IsJson (jsonDecimal n) := isJson_string _

theorem isJson_comma : IsJson [','] := by
  refine isJson_of_plain fun c hc => ?_
  rw [List.mem_singleton.1 hc]
  exact ⟨fun _ => rfl, by decide⟩

theorem isJson_joinChars {items : List Json} (h : ∀ item ∈ items, IsJson item) :
    IsJson (joinChars ',' items) := by
  match items with
  | [] => exact isJson_nil
  | [item] => exact h item (List.mem_singleton_self _)
  | item :: next :: rest =>
      have hlater := isJson_joinChars fun a ha => h a (List.mem_cons_of_mem item ha)
      exact (h item (List.mem_cons_self ..)).append (isJson_comma.append hlater)

theorem isJson_array {items : List Json} (h : ∀ item ∈ items, IsJson item) :
    IsJson (jsonArray items) :=
  (isJson_joinChars h).enclose (fun _ => rfl) (fun _ => rfl) (by decide) (by decide)

theorem isJson_map {α : Type} {f : α → Json} (h : ∀ a, IsJson (f a)) (l : List α) :
    IsJson (jsonArray (l.map f)) := by
  refine isJson_array fun item hitem => ?_
  obtain ⟨a, -, rfl⟩ := List.mem_map.1 hitem
  exact h a

theorem isJson_fields {fields : List (String × Json)} (h : ∀ f ∈ fields, IsJson f.2) :
    IsJson (joinChars ',' (fields.map fun f => jsonString f.1 ++ ':' :: f.2)) := by
  refine isJson_joinChars fun item hitem => ?_
  obtain ⟨f, hf, rfl⟩ := List.mem_map.1 hitem
  have hcolon : IsJson [':'] := by
    refine isJson_of_plain fun c hc => ?_
    rw [List.mem_singleton.1 hc]
    exact ⟨fun _ => rfl, by decide⟩
  exact (isJson_string f.1).append (hcolon.append (h f hf))

theorem isJson_object {fields : List (String × Json)} (h : ∀ f ∈ fields, IsJson f.2) :
    IsJson (jsonObject fields) :=
  (isJson_fields h).enclose (fun _ => rfl) (fun _ => rfl) (by decide) (by decide)

/-! ## Whole values -/

/-- An object as it is written: a line between one pair of braces. -/
def IsObject (chars : List Char) : Prop :=
  ∃ inner, IsJson inner ∧ chars = '\x7b' :: inner ++ ['\x7d']

theorem isObject_jsonObject {fields : List (String × Json)} (h : ∀ f ∈ fields, IsJson f.2) :
    IsObject (jsonObject fields) := ⟨_, isJson_fields h, rfl⟩

/-- What a reader of single values accepts at most: every bracket is closed, and nothing but
white space follows the one that closes the outermost level. -/
structure OneValue (chars : List Char) : Prop where
  closed : scan start chars = start
  last : ∀ p c q, chars = p ++ c :: q → 0 < (scan start p).depth →
    scan start (p ++ [c]) = start → ∀ a ∈ q, isWhitespace a = true

namespace IsObject

variable {chars : List Char}

theorem isJson (h : IsObject chars) : IsJson chars := by
  obtain ⟨inner, hinner, rfl⟩ := h
  exact hinner.enclose (fun _ => rfl) (fun _ => rfl) (by decide) (by decide)

/-- Between its braces an object is above the outermost level. -/
theorem depth_pos (h : IsObject chars) {p q : List Char} (hchars : chars = p ++ q) (hp : p ≠ [])
    (hq : q ≠ []) : 0 < (scan start p).depth := by
  obtain ⟨inner, hinner, rfl⟩ := h
  obtain ⟨c, p, rfl⟩ := List.exists_cons_of_ne_nil hp
  obtain ⟨q, a, rfl⟩ := List.eq_nil_or_concat q |>.resolve_left hq
  rw [List.cons_append, List.cons_append, List.cons.injEq, List.concat_eq_append,
    ← List.append_assoc] at hchars
  obtain ⟨rfl, htail⟩ := hchars
  obtain ⟨hinnerEq, -⟩ := List.append_inj' htail rfl
  have hstays := hinner.level.stays 1
  rw [hinnerEq, stays_append] at hstays
  exact hstays.1.scan

theorem not_oneValue_cut (h : IsObject chars) {p q : List Char} (hchars : chars = p ++ q)
    (hp : p ≠ []) (hq : q ≠ []) : ¬OneValue p := by
  intro hone
  have hdepth := h.depth_pos hchars hp hq
  rw [hone.closed] at hdepth
  exact absurd hdepth (by decide)

/-- Nothing visible can follow an object. -/
theorem whitespace_of_oneValue (h : IsObject chars) {rest : List Char}
    (hone : OneValue (chars ++ rest)) : ∀ a ∈ rest, isWhitespace a = true := by
  have hback := h.isJson.level.back 0
  have hdepth := fun p q heq => h.depth_pos (p := p) (q := q) heq
  obtain ⟨inner, -, rfl⟩ := h
  refine hone.last ('\x7b' :: inner) '\x7d' rest (by simp) ?_ hback
  exact hdepth _ _ rfl (List.cons_ne_nil _ _) (List.cons_ne_nil _ _)

theorem oneValue (h : IsObject chars) : OneValue chars := by
  refine ⟨h.isJson.level.back 0, fun p c q hchars hdepth hback a ha => ?_⟩
  have hpositive := h.depth_pos (p := p ++ [c]) (q := q) (by simpa using hchars) (by simp)
    (List.ne_nil_of_mem ha)
  rw [hback] at hpositive
  exact absurd hpositive (by decide)

/-- An object starts with something visible. -/
theorem exists_cons (h : IsObject chars) : ∃ rest, chars = '\x7b' :: rest := by
  obtain ⟨inner, -, rfl⟩ := h
  exact ⟨_, rfl⟩

end IsObject

end JsonText
