import IeumChain.Library.JsonText
import IeumChain.Library.Outcome
import IeumChain.Library.Utf8

/-!
# Files with one record on each line

Records are appended to a file as lines of JSON. Reading it back takes the lines one by one.
A file whose last line was cut off is still a file: what it is read as depends on where the
cut falls, and on whether the file is decoded line by line or as a whole.
-/
namespace Journal

open ByteCodec Text JsonText Outcome

/-- Splits at line feeds. A carriage return before one is dropped, and what follows the last
line feed is a line if there is anything. -/
def lines {γ : Type} [DecidableEq γ] (lf cr : γ) : List γ → List (List γ)
  | [] => []
  | a :: rest =>
      if a = lf then [] :: lines lf cr rest
      else if a = cr ∧ rest.head? = some lf then lines lf cr rest
      else
        match lines lf cr rest with
        | [] => [[a]]
        | l :: ls => (a :: l) :: ls

section
variable {γ : Type} [DecidableEq γ] {lf cr : γ}

theorem lines_line {l : List γ} (hlf : lf ∉ l) (hcr : cr ∉ l) (rest : List γ) :
    lines lf cr (l ++ lf :: rest) = l :: lines lf cr rest := by
  induction l with
  | nil => simp [lines]
  | cons a l ih =>
      rw [List.mem_cons, not_or] at hlf hcr
      rw [List.cons_append, lines, if_neg (Ne.symm hlf.1), if_neg fun h => hcr.1 h.1.symm,
        ih hlf.2 hcr.2]

theorem lines_last {l : List γ} (hne : l ≠ []) (hlf : lf ∉ l) (hcr : cr ∉ l) :
    lines lf cr l = [l] := by
  induction l with
  | nil => exact absurd rfl hne
  | cons a l ih =>
      rw [List.mem_cons, not_or] at hlf hcr
      rw [lines, if_neg (Ne.symm hlf.1), if_neg fun h => hcr.1 h.1.symm]
      cases l with
      | nil => rfl
      | cons b l => rw [ih (List.cons_ne_nil b l) hlf.2 hcr.2]

theorem lines_flatMap {ls : List (List γ)} (h : ∀ l ∈ ls, lf ∉ l ∧ cr ∉ l) (rest : List γ) :
    lines lf cr (ls.flatMap (· ++ [lf]) ++ rest) = ls ++ lines lf cr rest := by
  induction ls with
  | nil => rfl
  | cons l ls ih =>
      rw [List.forall_mem_cons] at h
      rw [List.flatMap_cons, List.append_assoc, List.append_assoc, List.singleton_append,
        lines_line h.1.1 h.1.2, ih h.2, List.cons_append]

end

/-! ## Reading -/

section
variable {α β : Type} (read : String → Except String α) (add : β → α → Except String β)
  (message : ℕ → String → String)

/-- Reads a line into a state: blank lines are passed over, every other one is a record. -/
def readLine (s : ℕ × β) (line : Option String) : Except String (ℕ × β) := do
  let text ← okOr line "stream did not contain valid UTF-8"
  if isBlank text then pure (s.1 + 1, s.2)
  else do
    let r ← (read text).mapError (message (s.1 + 1))
    let b ← add s.2 r
    pure (s.1 + 1, b)

def readLines (all : List (Option String)) (initial : β) : Except String β := do
  let (_, b) ← all.foldlM (readLine read add message) (0, initial)
  pure b

/-- The lines of a file that is decoded line by line. -/
def byteLines (contents : Bytes) : List (Option String) := (lines 10 13 contents).map decodeUtf8

/-- The lines of a text. -/
def textLines (s : String) : List (Option String) :=
  (lines '\n' '\r' s.toList).map fun l => some (String.ofList l)

/-- Reads a file line by line. -/
def loadBytes (initial : β) (contents : Bytes) : Except String β :=
  readLines read add message (byteLines contents) initial

/-- Reads a file as a whole. One that cannot be read as text counts as missing. -/
def loadText (initial : β) (contents : Bytes) : Except String β :=
  match decodeUtf8 contents with
  | none => .ok initial
  | some s => readLines read add message (textLines s) initial

end

/-! ## Records on their lines -/

section
variable {α β : Type} (write : α → Json)

def text (r : α) : String := String.ofList (write r)

def line (r : α) : Bytes := utf8 (text write r) ++ [10]

/-- The file after these records have been appended. -/
def contents (records : List α) : Bytes := records.flatMap (line write)

/-- A record is read as it was written. -/
def ReadsBack (read : String → Except String α) (r : α) : Prop := read (text write r) = .ok r

/-- The reader accepts single values only. -/
def ReadsValues (read : String → Except String α) : Prop :=
  ∀ s r, read s = .ok r → OneValue s.toList

/-- A line that is neither blank nor a record. -/
def Unreadable (read : String → Except String α) (l : Option String) : Prop :=
  ∀ s, l = some s → isBlank s = false ∧ ∀ r, read s ≠ .ok r

variable {write} {read : String → Except String α} {add : β → α → Except String β}
  {message : ℕ → String → String}

theorem isBlank_of_brace {s : String} {rest : List Char} (h : s.toList = '\x7b' :: rest) :
    isBlank s = false := by
  rw [isBlank, allChars, h]
  rfl

theorem isBlank_text (hobject : ∀ r, IsObject (write r)) (r : α) :
    isBlank (text write r) = false := by
  obtain ⟨rest, hrest⟩ := (hobject r).exists_cons
  exact isBlank_of_brace (by rw [text, String.toList_ofList, hrest])

theorem text_ne_empty (hobject : ∀ r, IsObject (write r)) (r : α) : text write r ≠ "" := by
  intro hempty
  obtain ⟨rest, hrest⟩ := (hobject r).exists_cons
  have hlist := congrArg String.toList hempty
  rw [text, String.toList_ofList, hrest] at hlist
  cases hlist

theorem readLines_eq_ok {all : List (Option String)} {initial b : β} :
    readLines read add message all initial = .ok b ↔
      ∃ i, all.foldlM (readLine read add message) (0, initial) = .ok (i, b) := by
  simp only [readLines, bind_eq_ok, pure_eq_ok, Prod.exists]
  constructor
  · rintro ⟨i, _, h, rfl⟩
    exact ⟨i, h⟩
  · rintro ⟨i, h⟩
    exact ⟨i, b, h, rfl⟩

/-- The lines of the records add them one after the other. -/
theorem readLines_records (hobject : ∀ r, IsObject (write r)) {records : List α}
    (hreads : ∀ r ∈ records, ReadsBack write read r) {initial b : β} :
    readLines read add message (records.map fun r => some (text write r)) initial = .ok b ↔
      records.foldlM add initial = .ok b := by
  have hrun : ∀ i, (∃ j, (records.map fun r => some (text write r)).foldlM
      (readLine read add message) (i, initial) = .ok (j, b)) ↔
        records.foldlM add initial = .ok b := by
    induction records generalizing initial with
    | nil => simp
    | cons r rest ih =>
        intro i
        rw [List.forall_mem_cons] at hreads
        have hread : read (text write r) = .ok r := hreads.1
        have hstep : ∀ p, readLine read add message (i, initial) (some (text write r)) = .ok p ↔
            ∃ b₁, add initial r = .ok b₁ ∧ (i + 1, b₁) = p := by
          intro p
          simp [readLine, isBlank_text hobject r, hread]
        simp only [List.map_cons, List.foldlM_cons, bind_eq_ok, hstep]
        constructor
        · rintro ⟨j, _, ⟨b₁, hadd, rfl⟩, hrest⟩
          exact ⟨b₁, hadd, (ih hreads.2 (i + 1)).1 ⟨j, hrest⟩⟩
        · rintro ⟨b₁, hadd, hrest⟩
          obtain ⟨j, hj⟩ := (ih hreads.2 (i + 1)).2 hrest
          exact ⟨j, _, ⟨b₁, hadd, rfl⟩, hj⟩
  rw [readLines_eq_ok]
  exact hrun 0

/-- One unreadable line makes the file unreadable. -/
theorem readLines_ne_ok {all : List (Option String)} {l : Option String} (hl : l ∈ all)
    (hbad : Unreadable read l) (initial b : β) :
    readLines read add message all initial ≠ .ok b := by
  intro h
  obtain ⟨i, hi⟩ := readLines_eq_ok.1 h
  obtain ⟨s, s', -, hs⟩ := foldlM_mem (P := fun _ => True) (fun _ _ _ _ _ => trivial) trivial hi hl
  simp only [readLine, bind_eq_ok, okOr_eq_ok] at hs
  obtain ⟨t, ht, hs⟩ := hs
  obtain ⟨hblank, hread⟩ := hbad t ht
  rw [hblank, if_neg Bool.false_ne_true] at hs
  simp only [bind_eq_ok, mapError_eq_ok] at hs
  obtain ⟨r, hr, -⟩ := hs
  exact hread r hr

/-! ## Files whose last line was cut off -/

theorem printable_utf8 (hobject : ∀ r, IsObject (write r)) (r : α) :
    ∀ b ∈ utf8 (text write r), 32 ≤ b.toNat := by
  intro b hb
  by_contra hsmall
  obtain ⟨c, hc, heq⟩ := exists_char_of_mem_utf8 (by omega) hb
  rw [text, String.toList_ofList] at hc
  have hprintable := (hobject r).isJson.printable c hc
  omega

theorem byteLines_contents (hobject : ∀ r, IsObject (write r)) (records : List α)
    (rest : Bytes) : byteLines (contents write records ++ rest) =
      (records.map fun r => some (text write r)) ++ byteLines rest := by
  have hlines : contents write records =
      (records.map fun r => utf8 (text write r)).flatMap (· ++ [10]) := by
    rw [List.flatMap_map]
    rfl
  rw [byteLines, hlines, lines_flatMap, List.map_append, List.map_map]
  · congr 1
    exact List.map_congr_left fun r _ => decodeUtf8_utf8 _
  · intro l hl
    obtain ⟨r, -, rfl⟩ := List.mem_map.1 hl
    have hprintable := printable_utf8 hobject r
    exact ⟨fun h => absurd (hprintable _ h) (by decide), fun h => absurd (hprintable _ h) (by decide)⟩

/-- A last line of printable bytes, whether it can be decoded or not. -/
theorem byteLines_last {b : Bytes} (hne : b ≠ []) (hbytes : ∀ x ∈ b, 32 ≤ x.toNat) :
    byteLines b = [decodeUtf8 b] := by
  rw [byteLines, lines_last hne, List.map_singleton]
  · exact fun h => absurd (hbytes 10 h) (by decide)
  · exact fun h => absurd (hbytes 13 h) (by decide)

/-- The records up to here as one text. -/
def contentsText (write : α → Json) (records : List α) : String :=
  String.ofList (records.flatMap fun r => write r ++ ['\n'])

theorem utf8_contentsText (records : List α) :
    utf8 (contentsText write records) = contents write records := by
  have hnewline : String.utf8EncodeChar '\n' = [10] := by decide
  rw [contentsText, utf8_ofList, contents, List.flatMap_assoc]
  congr 1
  funext r
  rw [line, text, utf8_ofList, List.flatMap_append, List.flatMap_singleton, hnewline]

theorem textLines_contents (hobject : ∀ r, IsObject (write r)) (records : List α) (rest : String) :
    textLines (contentsText write records ++ rest) =
      (records.map fun r => some (text write r)) ++ textLines rest := by
  have hlines : (contentsText write records ++ rest).toList =
      (records.map write).flatMap (· ++ ['\n']) ++ rest.toList := by
    rw [String.toList_append, contentsText, String.toList_ofList, List.flatMap_map]
  rw [textLines, hlines, lines_flatMap, List.map_append, List.map_map]
  · rfl
  · intro l hl
    obtain ⟨r, -, rfl⟩ := List.mem_map.1 hl
    have hprintable := (hobject r).isJson.printable
    exact ⟨fun h => absurd (hprintable _ h) (by decide), fun h => absurd (hprintable _ h) (by decide)⟩

theorem textLines_last {s : String} (hne : s ≠ "") (hchars : ∀ c ∈ s.toList, 32 ≤ c.toNat) :
    textLines s = [some s] := by
  have hlist : s.toList ≠ [] := fun h => hne (String.toList_eq_nil_iff.1 h)
  rw [textLines, lines_last hlist, List.map_singleton, String.ofList_toList]
  · exact fun h => absurd (hchars _ h) (by decide)
  · exact fun h => absurd (hchars _ h) (by decide)

/-- A part of a record is no record. -/
theorem unreadable_cut (hobject : ∀ r, IsObject (write r)) (hvalues : ReadsValues read) {r : α}
    {cut rest : Bytes} (h : utf8 (text write r) = cut ++ rest) (hcut : cut ≠ []) (hrest : rest ≠ []) :
    Unreadable read (decodeUtf8 cut) := by
  intro s hs
  rw [← decodeUtf8_eq_some.1 hs] at h
  obtain ⟨y, htext, hy⟩ := exists_append_of_utf8_left h
  have hsne : s.toList ≠ [] := by
    intro hnil
    rw [String.toList_eq_nil_iff.1 hnil] at hs
    exact hcut (decodeUtf8_eq_some.1 hs).symm
  have hyne : y.toList ≠ [] := by
    intro hnil
    rw [String.toList_eq_nil_iff.1 hnil] at hy
    exact hrest hy.symm
  have hchars : write r = s.toList ++ y.toList := by
    rw [← String.toList_append, ← htext, text, String.toList_ofList]
  refine ⟨?_, fun a ha => ?_⟩
  · obtain ⟨tail, htail⟩ := (hobject r).exists_cons
    obtain ⟨c, chars, hc⟩ := List.exists_cons_of_ne_nil hsne
    rw [htail, hc, List.cons_append, List.cons.injEq] at hchars
    exact isBlank_of_brace (hchars.1 ▸ hc)
  · exact (hobject r).not_oneValue_cut hchars hsne hyne (hvalues s a ha)

/-- Two records on one line are no record. -/
theorem unreadable_glued (hobject : ∀ r, IsObject (write r)) (hvalues : ReadsValues read)
    (r next : α) : Unreadable read (some (text write r ++ text write next)) := by
  intro s hs
  obtain rfl := Option.some.inj hs
  have hchars : (text write r ++ text write next).toList = write r ++ write next := by
    rw [String.toList_append, text, text, String.toList_ofList, String.toList_ofList]
  refine ⟨?_, fun a ha => ?_⟩
  · obtain ⟨tail, htail⟩ := (hobject r).exists_cons
    exact isBlank_of_brace (by rw [hchars, htail, List.cons_append])
  · have hone := hvalues _ a ha
    rw [hchars] at hone
    obtain ⟨tail, htail⟩ := (hobject next).exists_cons
    have hblank := (hobject r).whitespace_of_oneValue hone '\x7b' (htail ▸ List.mem_cons_self ..)
    exact absurd hblank (by decide)

/-- Where an append can be cut off: before the record, after it, before its line feed, or in
its text. -/
theorem take_line (hobject : ∀ r, IsObject (write r)) (r : α) (n : ℕ) :
    n = 0 ∧ (line write r).take n = [] ∨
      n ≠ 0 ∧ (line write r).length ≤ n ∧ (line write r).take n = line write r ∨
      n ≠ 0 ∧ n + 1 = (line write r).length ∧ (line write r).take n = utf8 (text write r) ∨
      n ≠ 0 ∧ n + 1 < (line write r).length ∧ (line write r).take n ≠ [] ∧
        ∃ rest, rest ≠ [] ∧ utf8 (text write r) = (line write r).take n ++ rest := by
  have hlength : (line write r).length = (utf8 (text write r)).length + 1 := by simp [line]
  have hpositive : 0 < (utf8 (text write r)).length :=
    List.length_pos_iff.2 fun hnil => text_ne_empty hobject r (utf8_inj hnil)
  rcases Nat.eq_zero_or_pos n with rfl | hpos
  · exact .inl ⟨rfl, rfl⟩
  rcases Nat.lt_or_ge n (line write r).length with hlt | hge
  · rcases Nat.lt_or_ge (n + 1) (line write r).length with hinside | hend
    · have htake : (line write r).take n = (utf8 (text write r)).take n :=
        List.take_append_of_le_length (by omega)
      refine .inr (.inr (.inr ⟨by omega, hinside, ?_, (utf8 (text write r)).drop n, ?_, ?_⟩))
      · rw [htake, ← List.length_pos_iff, List.length_take]
        omega
      · rw [← List.length_pos_iff, List.length_drop]
        omega
      · rw [htake, List.take_append_drop]
    · exact .inr (.inr (.inl ⟨by omega, by omega, List.take_left' (by omega)⟩))
  · exact .inr (.inl ⟨by omega, hge, List.take_of_length_le hge⟩)

/-! ## What a cut file is read as -/

/-- A crashed file loads and keeps what it should, and so does the file after a further record,
where that is one to be written. -/
structure Survives (load : Bytes → Except String β) (keeps fresh : β → Prop)
    (crashed after : Bytes) : Prop where
  loads : ∃ s, load crashed = .ok s ∧ keeps s
  continues : ∀ s, load crashed = .ok s → fresh s → ∃ s', load after = .ok s' ∧ keeps s'

/-- A record cannot repair a character that was cut before it. -/
theorem decodeUtf8_append_line {cut : Bytes} (h : decodeUtf8 cut = none) (r : α) :
    decodeUtf8 (cut ++ line write r) = none := by
  have hline : line write r = utf8 (text write r ++ "\n") := by
    rw [utf8_append]
    rfl
  rw [hline, decodeUtf8_append_utf8, h, Option.map_none]

theorem contents_concat (records : List α) (r : α) :
    contents write (records ++ [r]) = contents write records ++ line write r := by
  simp [contents]

theorem decodeUtf8_contents_append (records : List α) (rest : Bytes) :
    decodeUtf8 (contents write records ++ rest) =
      (decodeUtf8 rest).map (contentsText write records ++ ·) := by
  rw [← utf8_contentsText, decodeUtf8_utf8_append]

/-- A file that is decoded as a whole counts as missing when a character is cut. -/
theorem loadText_undecodable (records : List α) (initial : β) {rest : Bytes}
    (h : decodeUtf8 rest = none) :
    loadText read add message initial (contents write records ++ rest) = .ok initial := by
  rw [loadText, decodeUtf8_contents_append, h]
  rfl

section
variable (hobject : ∀ r, IsObject (write r)) {records : List α} {initial b : β}

include hobject

theorem loadBytes_contents (hreads : ∀ r ∈ records, ReadsBack write read r) :
    loadBytes read add message initial (contents write records) = .ok b ↔
      records.foldlM add initial = .ok b := by
  have hlines := byteLines_contents hobject records []
  rw [List.append_nil] at hlines
  rw [loadBytes, hlines]
  simpa [byteLines, lines] using readLines_records hobject hreads

theorem loadBytes_cut (hvalues : ReadsValues read) {r : α} {cut rest : Bytes}
    (h : utf8 (text write r) = cut ++ rest) (hcut : cut ≠ []) (hrest : rest ≠ []) :
    loadBytes read add message initial (contents write records ++ cut) ≠ .ok b := by
  have hprintable : ∀ x ∈ cut, 32 ≤ x.toNat := fun x hx =>
    printable_utf8 hobject r x (h ▸ List.mem_append_left _ hx)
  refine readLines_ne_ok (l := decodeUtf8 cut) ?_ (unreadable_cut hobject hvalues h hcut hrest) _ _
  rw [byteLines_contents hobject, byteLines_last hcut hprintable]
  exact List.mem_append_right _ (List.mem_singleton_self _)

theorem loadBytes_glued (hvalues : ReadsValues read) (r next : α) :
    loadBytes read add message initial
      (contents write records ++ utf8 (text write r) ++ line write next) ≠ .ok b := by
  have hline : utf8 (text write r) ++ line write next =
      utf8 (text write r ++ text write next) ++ 10 :: [] := by
    rw [line, utf8_append, List.append_assoc]
  have hprintable : ∀ x ∈ utf8 (text write r ++ text write next), 32 ≤ x.toNat := by
    intro x hx
    rw [utf8_append] at hx
    exact (List.mem_append.1 hx).elim (printable_utf8 hobject r x) (printable_utf8 hobject next x)
  refine readLines_ne_ok (l := some (text write r ++ text write next)) ?_
    (unreadable_glued hobject hvalues r next) _ _
  rw [List.append_assoc, byteLines_contents hobject, hline, byteLines, lines_line, List.map_cons,
    decodeUtf8_utf8]
  · exact List.mem_append_right _ (List.mem_cons_self ..)
  · exact fun hx => absurd (hprintable 10 hx) (by decide)
  · exact fun hx => absurd (hprintable 13 hx) (by decide)

theorem loadText_append {rest : Bytes} {s : String} (h : decodeUtf8 rest = some s) :
    loadText read add message initial (contents write records ++ rest) =
      readLines read add message
        ((records.map fun r => some (text write r)) ++ textLines s) initial := by
  rw [loadText, decodeUtf8_contents_append, h, Option.map_some]
  dsimp only
  rw [textLines_contents hobject]

theorem loadText_contents (hreads : ∀ r ∈ records, ReadsBack write read r) :
    loadText read add message initial (contents write records) = .ok b ↔
      records.foldlM add initial = .ok b := by
  have hempty : decodeUtf8 [] = some "" := decodeUtf8_utf8 ""
  have hnone : textLines "" = [] := rfl
  rw [← List.append_nil (contents write records), loadText_append hobject hempty, hnone,
    List.append_nil]
  exact readLines_records hobject hreads

theorem textLines_text (r : α) : textLines (text write r) = [some (text write r)] := by
  refine textLines_last (text_ne_empty hobject r) fun c hc => ?_
  rw [text, String.toList_ofList] at hc
  exact (hobject r).isJson.printable c hc

theorem loadText_unterminated {r : α} (hreads : ∀ x ∈ records ++ [r], ReadsBack write read x) :
    loadText read add message initial (contents write records ++ utf8 (text write r)) = .ok b ↔
      (records ++ [r]).foldlM add initial = .ok b := by
  rw [loadText_append hobject (decodeUtf8_utf8 _), textLines_text hobject]
  rw [← readLines_records hobject hreads, List.map_append, List.map_singleton]

theorem loadText_cut (hvalues : ReadsValues read) {r : α} {cut rest : Bytes}
    (h : utf8 (text write r) = cut ++ rest) (hcut : cut ≠ []) (hrest : rest ≠ []) {s : String}
    (hs : decodeUtf8 cut = some s) :
    loadText read add message initial (contents write records ++ cut) ≠ .ok b := by
  have hprintable : ∀ c ∈ s.toList, 32 ≤ c.toNat := by
    rw [← decodeUtf8_eq_some.1 hs] at h
    obtain ⟨y, htext, -⟩ := exists_append_of_utf8_left h
    have hchars : write r = s.toList ++ y.toList := by
      rw [← String.toList_append, ← htext, text, String.toList_ofList]
    exact fun c hc => (hobject r).isJson.printable c (hchars ▸ List.mem_append_left _ hc)
  have hne : s ≠ "" := by
    rintro rfl
    exact hcut (decodeUtf8_eq_some.1 hs).symm
  have hbad := unreadable_cut hobject hvalues h hcut hrest
  rw [hs] at hbad
  rw [loadText_append hobject hs, textLines_last hne hprintable]
  exact readLines_ne_ok (List.mem_append_right _ (List.mem_singleton_self _)) hbad _ _

theorem loadText_glued (hvalues : ReadsValues read) (r next : α) :
    loadText read add message initial
      (contents write records ++ utf8 (text write r) ++ line write next) ≠ .ok b := by
  have hline : utf8 (text write r) ++ line write next =
      utf8 (text write r ++ text write next ++ "\n") := by
    rw [line, utf8_append, utf8_append, List.append_assoc]
    rfl
  have hprintable : ∀ c ∈ (text write r ++ text write next).toList, 32 ≤ c.toNat := by
    intro c hc
    rw [String.toList_append, text, text, String.toList_ofList, String.toList_ofList] at hc
    exact (List.mem_append.1 hc).elim ((hobject r).isJson.printable c)
      ((hobject next).isJson.printable c)
  have hlines : textLines (text write r ++ text write next ++ "\n") =
      [some (text write r ++ text write next)] := by
    have hlist : (text write r ++ text write next ++ "\n").toList =
        (text write r ++ text write next).toList ++ '\n' :: [] := String.toList_append ..
    rw [textLines, hlist, lines_line, List.map_cons, String.ofList_toList]
    · rfl
    · exact fun hx => absurd (hprintable _ hx) (by decide)
    · exact fun hx => absurd (hprintable _ hx) (by decide)
  rw [List.append_assoc, hline, loadText_append hobject (decodeUtf8_utf8 _), hlines]
  exact readLines_ne_ok (List.mem_append_right _ (List.mem_singleton_self _))
    (unreadable_glued hobject hvalues r next) _ _

variable (message) in
/-- The four ways in which a file that is decoded as a whole is read after its last append was
cut off: the record is missing, complete, complete without its line feed, or in part. -/
theorem loadText_take (hvalues : ReadsValues read) {torn : α} {b₁ : β}
    (hreads : ∀ r ∈ records ++ [torn], ReadsBack write read r)
    (hb : records.foldlM add initial = .ok b) (htorn : add b torn = .ok b₁) (n : ℕ) :
    let cut := (line write torn).take n
    let load := loadText read add message initial
    n = 0 ∧ cut = [] ∧ load (contents write records ++ cut) = .ok b ∨
      (line write torn).length ≤ n ∧ cut = line write torn ∧
        load (contents write records ++ cut) = .ok b₁ ∨
      n ≠ 0 ∧ n + 1 = (line write torn).length ∧ (decodeUtf8 cut).isSome = true ∧
        load (contents write records ++ cut) = .ok b₁ ∧
        (∀ next b', load (contents write records ++ cut ++ line write next) ≠ .ok b') ∨
      (n ≠ 0 ∧ n + 1 < (line write torn).length) ∧
        (decodeUtf8 cut = none ∧ load (contents write records ++ cut) = .ok initial ∧
            (∀ next, load (contents write records ++ cut ++ line write next) = .ok initial) ∨
          (decodeUtf8 cut).isSome = true ∧
            ∀ b', load (contents write records ++ cut) ≠ .ok b') := by
  intro cut load
  have hboth : (records ++ [torn]).foldlM add initial = .ok b₁ := by
    rw [List.foldlM_append, bind_eq_ok]
    exact ⟨b, hb, by rw [List.foldlM_cons, htorn]; rfl⟩
  have hrecords : ∀ r ∈ records, ReadsBack write read r := fun r hr =>
    hreads r (List.mem_append_left _ hr)
  rcases take_line hobject torn n with ⟨hn, hcut⟩ | ⟨hn, hlength, hcut⟩ | ⟨hn, hlength, hcut⟩ |
    ⟨hn, hlength, hcut, rest, hrest, htext⟩
  · refine .inl ⟨hn, hcut, ?_⟩
    rw [show cut = [] from hcut, List.append_nil]
    exact (loadText_contents hobject hrecords).2 hb
  · refine .inr (.inl ⟨hlength, hcut, ?_⟩)
    rw [show cut = line write torn from hcut, ← contents_concat]
    exact (loadText_contents hobject hreads).2 hboth
  · refine .inr (.inr (.inl ⟨hn, hlength, ?_, ?_, fun next b' => ?_⟩))
    all_goals rw [show cut = utf8 (text write torn) from hcut]
    · rw [decodeUtf8_utf8]
      rfl
    · exact (loadText_unterminated hobject hreads).2 hboth
    · exact loadText_glued hobject hvalues torn next
  · refine .inr (.inr (.inr ⟨⟨hn, hlength⟩, ?_⟩))
    cases hdecode : decodeUtf8 cut with
    | none =>
        refine .inl ⟨rfl, loadText_undecodable records initial hdecode, fun next => ?_⟩
        rw [List.append_assoc]
        exact loadText_undecodable records initial (decodeUtf8_append_line hdecode next)
    | some s =>
        exact .inr ⟨rfl, fun b' => loadText_cut hobject hvalues htext hcut hrest hdecode⟩

variable (message) in
/-- Exactly when the records of a file survive a cut append and the next one: the cut misses
the record, or takes it whole, or takes all but its line feed and nothing is appended, or goes
through a character where there is nothing to lose. -/
theorem survives_iff (hvalues : ReadsValues read) {torn next : α} {b₁ : β} (keeps fresh : β → Prop)
    (hreads : ∀ r ∈ records ++ [torn, next], ReadsBack write read r)
    (hb : records.foldlM add initial = .ok b) (htorn : add b torn = .ok b₁) (hkeeps : keeps b)
    (hkeeps₁ : keeps b₁)
    (hnext : ∀ s, s = b ∨ s = b₁ → fresh s → ∃ s', add s next = .ok s' ∧ keeps s') (n : ℕ) :
    let cut := (line write torn).take n
    let crashed := contents write records ++ cut
    Survives (loadText read add message initial) keeps fresh crashed (crashed ++ line write next) ↔
      n = 0 ∨ (line write torn).length ≤ n ∨ n + 1 = (line write torn).length ∧ ¬fresh b₁ ∨
        keeps initial ∧ decodeUtf8 cut = none := by
  intro cut crashed
  have hsubset : records ++ [torn] ⊆ records ++ [torn, next] := by
    intro r hr
    simp only [List.mem_append, List.mem_singleton, List.mem_pair] at hr ⊢
    tauto
  -- After complete records the next append is read back with them.
  have hcontinue : ∀ {l : List α} {s : β}, l ++ [next] ⊆ records ++ [torn, next] →
      l.foldlM add initial = .ok s → s = b ∨ s = b₁ → keeps s →
      loadText read add message initial crashed = .ok s → crashed = contents write l →
      Survives (loadText read add message initial) keeps fresh crashed
        (crashed ++ line write next) := by
    intro l s hl hfold hs hkeep hload hcrashed
    refine ⟨⟨s, hload, hkeep⟩, fun t ht hfresh => ?_⟩
    cases hload.symm.trans ht
    obtain ⟨s', hadd, hkeep'⟩ := hnext s hs hfresh
    refine ⟨s', ?_, hkeep'⟩
    rw [hcrashed, ← contents_concat]
    refine (loadText_contents hobject fun r hr => hreads r (hl hr)).2 ?_
    rw [List.foldlM_append, hfold, bind_eq_ok]
    exact ⟨s, rfl, by rw [List.foldlM_cons, hadd]; rfl⟩
  rcases loadText_take message hobject hvalues (fun r hr => hreads r (hsubset hr)) hb
      htorn n with
    ⟨hn, hcut, hload⟩ | ⟨hlength, hcut, hload⟩ | ⟨hn, hlength, hdecode, hload, hglued⟩ |
    ⟨⟨hn, hlength⟩, hcases⟩
  · simp only [hn, true_or, iff_true]
    refine hcontinue (l := records) (by simp) hb (.inl rfl) hkeeps hload ?_
    exact (congrArg (contents write records ++ ·) hcut).trans (List.append_nil _)
  · simp only [hlength, true_or, or_true, iff_true]
    refine hcontinue (l := records ++ [torn]) (by simp) ?_ (.inr rfl) hkeeps₁ hload ?_
    · rw [List.foldlM_append, hb, bind_eq_ok]
      exact ⟨b, rfl, by rw [List.foldlM_cons, htorn]; rfl⟩
    · rw [contents_concat]
      exact congrArg (contents write records ++ ·) hcut
  · have hshort : ¬(line write torn).length ≤ n := by omega
    have hdecodes : decodeUtf8 cut ≠ none := Option.isSome_iff_ne_none.1 hdecode
    simp only [hn, hshort, hlength, hdecodes, and_false, or_false, false_or, true_and]
    constructor
    · intro hsurvives hfresh
      obtain ⟨s', hlost, -⟩ := hsurvives.continues b₁ hload hfresh
      exact hglued next s' hlost
    · intro hstale
      refine ⟨⟨b₁, hload, hkeeps₁⟩, fun s hs hfresh => ?_⟩
      cases hload.symm.trans hs
      exact absurd hfresh hstale
  · have hshort : ¬(line write torn).length ≤ n := by omega
    have hnot : n + 1 ≠ (line write torn).length := by omega
    simp only [hn, hshort, hnot, false_and, false_or]
    rcases hcases with ⟨hdecode, hload, hafter⟩ | ⟨hdecode, hlost⟩
    · simp only [cut, hdecode, and_true]
      constructor
      · rintro ⟨⟨s, hs, hkeep⟩, -⟩
        cases hload.symm.trans hs
        exact hkeep
      · exact fun hkeep => ⟨⟨initial, hload, hkeep⟩, fun s _ _ => ⟨initial, hafter next, hkeep⟩⟩
    · have hdecodes : decodeUtf8 cut ≠ none := Option.isSome_iff_ne_none.1 hdecode
      simp only [hdecodes, and_false, iff_false]
      rintro ⟨⟨s, hs, -⟩, -⟩
      exact hlost s hs

end

/-- A record begins and ends with its braces. -/
theorem exists_line_eq (hobject : ∀ r, IsObject (write r)) (r : α) :
    ∃ body, line write r = 123 :: body ++ [125, 10] := by
  obtain ⟨inner, -, hwrite⟩ := hobject r
  have hopening : String.utf8EncodeChar '\x7b' = [123] := by decide
  have hclosing : String.utf8EncodeChar '\x7d' = [125] := by decide
  refine ⟨inner.flatMap String.utf8EncodeChar, ?_⟩
  rw [line, text, hwrite, utf8_ofList, List.cons_append, List.flatMap_cons, List.flatMap_append,
    List.flatMap_singleton, hopening, hclosing]
  simp

/-! ## Readers of single records -/

/-- Reads this record and nothing else. -/
def readOnly [DecidableEq α] (write : α → Json) (r : α) (s : String) : Except String α :=
  if s = text write r then .ok r else .error "expected value"

theorem readsBack_readOnly [DecidableEq α] (r : α) : ReadsBack write (readOnly write r) r :=
  if_pos rfl

theorem readsValues_readOnly [DecidableEq α] (hobject : ∀ r, IsObject (write r)) (r : α) :
    ReadsValues (readOnly write r) := by
  intro s x hx
  unfold readOnly at hx
  split_ifs at hx with hs
  rw [hs, text, String.toList_ofList]
  exact (hobject r).oneValue

/-- Reads these records and nothing else. -/
def readAmong (write : α → Json) (records : List α) (s : String) : Except String α :=
  match records.find? fun r => s = text write r with
  | some r => .ok r
  | none => .error "expected value"

theorem readAmong_eq_ok {records : List α} {s : String} {r : α}
    (h : readAmong write records s = .ok r) : r ∈ records ∧ s = text write r := by
  unfold readAmong at h
  split at h
  · next r' hfind =>
    cases h
    exact ⟨List.mem_of_find?_eq_some hfind, by simpa using List.find?_some hfind⟩
  · cases h

/-- Records with different texts are all read back. -/
theorem readsBack_readAmong {records : List α}
    (hdistinct : Set.InjOn (text write) {r | r ∈ records}) {r : α} (hr : r ∈ records) :
    ReadsBack write (readAmong write records) r := by
  have hsome : (records.find? fun x => text write r = text write x).isSome := by
    rw [List.find?_isSome]
    exact ⟨r, hr, decide_eq_true rfl⟩
  obtain ⟨r', hr'⟩ := Option.isSome_iff_exists.1 hsome
  have htext : text write r = text write r' := by simpa using List.find?_some hr'
  have hsame : r = r' := hdistinct hr (List.mem_of_find?_eq_some hr') htext
  rw [ReadsBack, readAmong, hr', hsame]

theorem readsValues_readAmong (hobject : ∀ r, IsObject (write r)) (records : List α) :
    ReadsValues (readAmong write records) := by
  intro s r hr
  rw [(readAmong_eq_ok hr).2, text, String.toList_ofList]
  exact (hobject r).oneValue

end

end Journal
