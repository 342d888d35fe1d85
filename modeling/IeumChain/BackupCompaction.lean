import IeumChain.Archive
import Mathlib.Data.Finmap
import Mathlib.Data.Finset.Sort

/-!
# The compaction of old backups

The monthly files of a year are merged into a temporary file, which is renamed to the annual file,
and then they are removed one by one. A crash leaves what the file operations before it have made
of the directory. A later run merges the months that it finds and renames over the annual file.
-/
namespace IeumChain

open ByteCodec Text Outcome Journal PaddedNames KeyedLists

/-- The compression of the backups: what a file holds while texts are written to it and when it is
finished, and how it is read. -/
structure Zstd where
  flushed : List String → Bytes
  finish : List String → Bytes
  decode : Bytes → Except String Bytes
  roundTrip : ∀ texts, decode (finish texts) = .ok (utf8 (String.join texts))

/-- The files of a directory by name. -/
abbrev Directory := Finmap fun _ : String => Bytes

inductive FileOp
  | write (name : String) (contents : Bytes)
  | rename (source target : String)
  | remove (name : String)

namespace Directory

def apply (d : Directory) : FileOp → Directory
  | .write name contents => d.insert name contents
  | .rename source target =>
      match d.lookup source with
      | some contents => (d.erase source).insert target contents
      | none => d
  | .remove name => d.erase name

def applyAll (d : Directory) (ops : List FileOp) : Directory := ops.foldl apply d

theorem applyAll_append (d : Directory) (ops more : List FileOp) :
    d.applyAll (ops ++ more) = (d.applyAll ops).applyAll more := List.foldl_append

end Directory

namespace BackupCompaction

/-- The extension `zst`, with a name before it. -/
def isZst (name : String) : Bool := ".zst".toList.isSuffixOf name.toList && name ≠ ".zst"

def isMonthly (year : ℕ) (name : String) : Bool :=
  startsWith name (padded 4 year) && 'M' ∈ name.toList

def annualName (year : ℕ) : String := padded 4 year ++ ".jsonl.zst"

def temporaryName (year : ℕ) : String := padded 4 year ++ ".jsonl.tmp"

/-- From 1970 to two years before the current one. -/
def compactedYears (currentYear : ℤ) : List ℕ := List.range' 1970 (currentYear - 2 - 1969).toNat

/-! File names are ordered like texts. -/

theorem isTrans_le : IsTrans String (· ≤ ·) := inferInstance

theorem antisymm_le : Std.Antisymm (fun a b : String => a ≤ b) := inferInstance

attribute [local instance] isTrans_le antisymm_le

/-- The monthly files of a year, sorted. -/
def monthsIn (names : Finset String) (year : ℕ) : List String :=
  (names.filter fun name => isMonthly year name).sort (· ≤ ·)

section
variable (zstd : Zstd) (read : String → Except String Block)

def readBackupText (d : Directory) (name : String) : Except String String := do
  let contents ← okOr (d.lookup name) "No such file or directory (os error 2)"
  let plain ← if isZst name then zstd.decode contents else pure contents
  okOr (decodeUtf8 plain) "stream did not contain valid UTF-8"

/-- The blocks of a text, one on each line that is not blank. -/
def parseBlocks (text : String) : Except String (List Block) :=
  ((textLines text).reduceOption.filter fun line => !isBlank line).mapM read

def fileBlocks (d : Directory) (name : String) : Except String (List Block) := do
  let text ← readBackupText zstd d name
  parseBlocks read text

def readBackupBlocks (d : Directory) : Except String (List Block) := do
  let files ← ((d.keys.sort (· ≤ ·)).filter fun name => isBackupName name).mapM
    (fileBlocks zstd read d)
  pure (sortByKey Block.height files.flatten)

/-- The texts before the first one that cannot be read. -/
def readTexts (d : Directory) : List String → List String × Except String Unit
  | [] => ([], .ok ())
  | name :: rest =>
      match readBackupText zstd d name with
      | .error e => ([], .error e)
      | .ok text =>
          let (texts, result) := readTexts d rest
          (text :: texts, result)

/-- The file operations for one year. The months are read while the temporary file is written,
which is not one of them. -/
def yearOps (d : Directory) (year : ℕ) : List FileOp × Except String (List String) :=
  let monthly := monthsIn d.keys year
  if monthly = [] then ([], .ok [])
  else
    let (texts, result) := readTexts zstd d monthly
    let written := texts.inits.map fun texts =>
      FileOp.write (temporaryName year) (zstd.flushed texts)
    match result with
    | .error e => (written, .error e)
    | .ok () =>
        (written ++ .write (temporaryName year) (zstd.finish texts) ::
          .rename (temporaryName year) (annualName year) :: monthly.map .remove,
          .ok [annualName year])

def compactOps : Directory → List ℕ → List FileOp × Except String (List String)
  | _, [] => ([], .ok [])
  | d, year :: rest =>
      match yearOps zstd d year with
      | (ops, .error e) => (ops, .error e)
      | (ops, .ok created) =>
          let (more, result) := compactOps (d.applyAll ops) rest
          (ops ++ more, result.map (created ++ ·))

/-- The directory afterwards, and the annual files that were written. -/
def compactOldBackups (d : Directory) (currentYear : ℤ) :
    Directory × Except String (List String) :=
  let (ops, result) := compactOps zstd d (compactedYears currentYear)
  (d.applyAll ops, result)

/-- The directory that a crash leaves after some operations. -/
def crashed (d : Directory) (currentYear : ℤ) (steps : ℕ) : Directory :=
  d.applyAll ((compactOps zstd d (compactedYears currentYear)).1.take steps)

def textOf (d : Directory) (name : String) : String :=
  match readBackupText zstd d name with
  | .ok text => text
  | .error _ => ""

/-- Every one of the files can be read. -/
def Decodes (d : Directory) (names : List String) : Prop :=
  ∀ name ∈ names, ∃ text, readBackupText zstd d name = .ok text

end

/-! ## Names -/

section
variable {year other : ℕ} {name : String} {names names' : Finset String}

theorem isMonthly_iff : isMonthly year name = true ↔
    startsWith name (padded 4 year) = true ∧ 'M' ∈ name.toList := by
  rw [isMonthly, Bool.and_eq_true, decide_eq_true_eq]

theorem mem_monthsIn : name ∈ monthsIn names year ↔ name ∈ names ∧ isMonthly year name := by
  rw [monthsIn, Finset.mem_sort, Finset.mem_filter]

theorem monthsIn_congr (h : ∀ name, isMonthly year name → (name ∈ names ↔ name ∈ names')) :
    monthsIn names year = monthsIn names' year := by
  have hfilter : (names.filter fun name => isMonthly year name) =
      names'.filter fun name => isMonthly year name := by
    ext name
    rw [Finset.mem_filter, Finset.mem_filter]
    exact and_congr_left (h name)
  rw [monthsIn, monthsIn, hfilter]

theorem not_mem_padded (year : ℕ) : 'M' ∉ (padded 4 year).toList := fun h =>
  absurd (isDigit_of_mem_padded h) (by decide)

theorem not_isMonthly_annualName : ¬isMonthly year (annualName other) = true := by
  simp [isMonthly, annualName, String.toList_append, not_mem_padded]

theorem annualName_ne (h : year ≠ other) : annualName year ≠ annualName other := by
  intro heq
  have hlist := congrArg String.toList heq
  rw [annualName, annualName, String.toList_append, String.toList_append] at hlist
  have hpadded : padded 4 year = padded 4 other :=
    String.toList_inj.1 (List.append_cancel_right hlist)
  exact h (padded_inj hpadded)

theorem annualName_ne_temporaryName : annualName year ≠ temporaryName other := by
  intro heq
  have hlist := congrArg (fun s : String => s.toList.getLast?) heq
  simp [annualName, temporaryName, String.toList_append] at hlist

end

/-! ## One year -/

section
variable {zstd : Zstd} {read : String → Except String Block} {d d' : Directory} {year other : ℕ}
  {name : String} {names : List String}

theorem readBackupText_congr (h : d.lookup name = d'.lookup name) :
    readBackupText zstd d name = readBackupText zstd d' name := by
  rw [readBackupText, readBackupText, h]

theorem textOf_congr (h : d.lookup name = d'.lookup name) :
    textOf zstd d name = textOf zstd d' name := by
  rw [textOf, textOf, readBackupText_congr h]

theorem readTexts_of_decodes (h : Decodes zstd d names) :
    readTexts zstd d names = (names.map (textOf zstd d), .ok ()) := by
  induction names with
  | nil => rfl
  | cons name rest ih =>
      rw [Decodes, List.forall_mem_cons] at h
      obtain ⟨⟨text, htext⟩, hrest⟩ := h
      have hsame : textOf zstd d name = text := by rw [textOf, htext]
      rw [readTexts, htext, ih hrest, List.map_cons, hsame]

theorem readTexts_of_not (h : ¬Decodes zstd d names) :
    ∃ texts e, readTexts zstd d names = (texts, .error e) := by
  induction names with
  | nil => exact absurd nofun h
  | cons name rest ih =>
      rw [readTexts]
      cases htext : readBackupText zstd d name with
      | error e => exact ⟨[], e, rfl⟩
      | ok text =>
          have hrest : ¬Decodes zstd d rest := fun hdecodes =>
            h (List.forall_mem_cons.2 ⟨⟨text, htext⟩, hdecodes⟩)
          obtain ⟨texts, e, heq⟩ := ih hrest
          exact ⟨text :: texts, e, by rw [heq]⟩

/-- The directory with an annual file and without the temporary one and some months. -/
def merged (zstd : Zstd) (d : Directory) (year : ℕ) (gone kept : List String) : Directory :=
  Directory.applyAll ((d.erase (temporaryName year)).insert (annualName year)
    (zstd.finish (kept.map (textOf zstd d)))) (gone.map .remove)

theorem lookup_applyAll_remove (d : Directory) (gone : List String) (name : String) :
    (d.applyAll (gone.map .remove)).lookup name =
      if name ∈ gone then none else d.lookup name := by
  induction gone generalizing d with
  | nil => simp [Directory.applyAll]
  | cons first rest ih =>
      have hstep : d.applyAll ((first :: rest).map .remove) =
          Directory.applyAll (d.erase first) (rest.map .remove) := rfl
      rw [hstep, ih]
      by_cases hfirst : name = first
      · subst hfirst
        simp [Finmap.lookup_erase]
      · simp [hfirst, Finmap.lookup_erase_ne hfirst]

theorem lookup_merged {gone kept : List String} (hgone : annualName year ∉ gone) (name : String) :
    (merged zstd d year gone kept).lookup name =
      if name = annualName year then some (zstd.finish (kept.map (textOf zstd d)))
      else if name = temporaryName year ∨ name ∈ gone then none else d.lookup name := by
  rw [merged, lookup_applyAll_remove]
  by_cases hannual : name = annualName year
  · subst hannual
    rw [if_neg hgone, if_pos rfl, Finmap.lookup_insert]
  · rw [if_neg hannual, Finmap.lookup_insert_of_ne _ hannual]
    by_cases htemporary : name = temporaryName year
    · subst htemporary
      simp [Finmap.lookup_erase]
    · simp [htemporary, Finmap.lookup_erase_ne htemporary]

/-- Writes to one file leave what the last one wrote. -/
theorem applyAll_writes {ops : List FileOp} (h : ∀ op ∈ ops, ∃ contents, op = .write name contents) :
    d.applyAll ops = d ∨ ∃ contents, d.applyAll ops = d.insert name contents := by
  induction ops generalizing d with
  | nil => exact .inl rfl
  | cons op rest ih =>
      obtain ⟨⟨contents, rfl⟩, hrest⟩ := List.forall_mem_cons.1 h
      rcases ih (d := d.insert name contents) hrest with hsame | ⟨last, hlast⟩
      · exact .inr ⟨contents, hsame⟩
      · refine .inr ⟨last, ?_⟩
        rw [Finmap.insert_insert] at hlast
        exact hlast

theorem erase_insert (d : Directory) (name : String) (contents : Bytes) :
    (d.insert name contents).erase name = d.erase name := by
  refine Finmap.ext_lookup fun other => ?_
  by_cases hother : other = name
  · subst hother
    rw [Finmap.lookup_erase, Finmap.lookup_erase]
  · rw [Finmap.lookup_erase_ne hother, Finmap.lookup_erase_ne hother,
      Finmap.lookup_insert_of_ne _ hother]

/-- The writes of a year, up to the finished temporary file. -/
def yearWrites (zstd : Zstd) (year : ℕ) (texts : List String) : List FileOp :=
  (texts.inits.map fun texts => FileOp.write (temporaryName year) (zstd.flushed texts)) ++
    [.write (temporaryName year) (zstd.finish texts)]

theorem yearOps_of_none (h : monthsIn d.keys year = []) : yearOps zstd d year = ([], .ok []) := by
  rw [yearOps, if_pos h]

theorem yearOps_of_decodes (hne : monthsIn d.keys year ≠ [])
    (hdecodes : Decodes zstd d (monthsIn d.keys year)) : yearOps zstd d year =
      (yearWrites zstd year ((monthsIn d.keys year).map (textOf zstd d)) ++
        .rename (temporaryName year) (annualName year) :: (monthsIn d.keys year).map .remove,
        .ok [annualName year]) := by
  rw [yearOps, if_neg hne, readTexts_of_decodes hdecodes]
  simp [yearWrites]

theorem yearOps_of_not (hne : monthsIn d.keys year ≠ [])
    (hnot : ¬Decodes zstd d (monthsIn d.keys year)) : ∃ ops e,
      yearOps zstd d year = (ops, .error e) ∧
        ∀ op ∈ ops, ∃ contents, op = .write (temporaryName year) contents := by
  obtain ⟨texts, e, htexts⟩ := readTexts_of_not hnot
  rw [yearOps, if_neg hne, htexts]
  refine ⟨_, e, rfl, fun op hop => ?_⟩
  obtain ⟨written, -, rfl⟩ := List.mem_map.1 hop
  exact ⟨_, rfl⟩

theorem mem_yearWrites {texts : List String} :
    ∀ op ∈ yearWrites zstd year texts, ∃ contents, op = .write (temporaryName year) contents := by
  intro op hop
  rcases List.mem_append.1 hop with hwritten | hlast
  · obtain ⟨written, -, rfl⟩ := List.mem_map.1 hwritten
    exact ⟨_, rfl⟩
  · exact ⟨_, List.mem_singleton.1 hlast⟩

/-- After the rename the annual file has what was written. -/
theorem applyAll_renamed (texts : List String) (more : List FileOp) :
    d.applyAll (yearWrites zstd year texts ++
      .rename (temporaryName year) (annualName year) :: more) =
      Directory.applyAll ((d.erase (temporaryName year)).insert (annualName year)
        (zstd.finish texts)) more := by
  have hwritten : d.applyAll (yearWrites zstd year texts) =
      d.insert (temporaryName year) (zstd.finish texts) := by
    rw [yearWrites, Directory.applyAll_append]
    have hwrites : ∀ op ∈ texts.inits.map fun texts => FileOp.write (temporaryName year)
        (zstd.flushed texts), ∃ contents, op = .write (temporaryName year) contents := by
      intro op hop
      obtain ⟨written, -, rfl⟩ := List.mem_map.1 hop
      exact ⟨_, rfl⟩
    rcases applyAll_writes (d := d) hwrites with hsame | ⟨contents, hcontents⟩
    · rw [hsame]
      rfl
    · rw [hcontents]
      exact Finmap.insert_insert d
  rw [Directory.applyAll_append, hwritten]
  have hrename : Directory.apply (d.insert (temporaryName year) (zstd.finish texts))
      (.rename (temporaryName year) (annualName year)) =
        (d.erase (temporaryName year)).insert (annualName year) (zstd.finish texts) := by
    rw [Directory.apply, Finmap.lookup_insert, erase_insert]
  exact congrArg (fun d => Directory.applyAll d more) hrename

/-- The number of writes of a year. -/
def writeCount (zstd : Zstd) (d : Directory) (year : ℕ) : ℕ :=
  (yearWrites zstd year ((monthsIn d.keys year).map (textOf zstd d))).length

/-- A crash before the rename leaves a temporary file at most. -/
theorem crash_early (hne : monthsIn d.keys year ≠ [])
    (hdecodes : Decodes zstd d (monthsIn d.keys year)) (more : List FileOp) {steps : ℕ}
    (hsteps : steps ≤ writeCount zstd d year) :
    d.applyAll (((yearOps zstd d year).1 ++ more).take steps) = d ∨ ∃ contents,
      d.applyAll (((yearOps zstd d year).1 ++ more).take steps) =
        d.insert (temporaryName year) contents := by
  rw [yearOps_of_decodes hne hdecodes, List.append_assoc, List.take_append_of_le_length hsteps]
  exact applyAll_writes fun op hop => mem_yearWrites op (List.mem_of_mem_take hop)

/-- A crash after the rename leaves the annual file and the last months, and then what it leaves of
the years after. -/
theorem crash_late (hne : monthsIn d.keys year ≠ [])
    (hdecodes : Decodes zstd d (monthsIn d.keys year)) (more : List FileOp) (removed : ℕ) :
    d.applyAll (((yearOps zstd d year).1 ++ more).take (writeCount zstd d year + 1 + removed)) =
      (merged zstd d year ((monthsIn d.keys year).take removed) (monthsIn d.keys year)).applyAll
        (more.take (removed - (monthsIn d.keys year).length)) := by
  have hcount : writeCount zstd d year + 1 + removed - writeCount zstd d year = removed + 1 := by
    omega
  have hlength : (yearWrites zstd year ((monthsIn d.keys year).map (textOf zstd d))).length =
      writeCount zstd d year := rfl
  rw [yearOps_of_decodes hne hdecodes, List.append_assoc, List.take_append, hlength, hcount,
    List.take_of_length_le (by omega), List.cons_append, List.take_succ_cons, applyAll_renamed,
    List.take_append, List.length_map, ← List.map_take, Directory.applyAll_append]
  rfl

/-! ## Runs -/

/-- A run over the years that comes to its end with the directory. -/
def Finishes (zstd : Zstd) (d : Directory) (years : List ℕ) (final : Directory) : Prop :=
  (∃ created, (compactOps zstd d years).2 = .ok created) ∧
    d.applyAll (compactOps zstd d years).1 = final

theorem finishes_nil {final : Directory} : Finishes zstd d [] final ↔ final = d :=
  ⟨fun h => h.2.symm, fun h => ⟨⟨[], rfl⟩, h.symm⟩⟩

variable {rest : List ℕ} {final : Directory}

theorem compactOps_of_none (h : monthsIn d.keys year = []) :
    (compactOps zstd d (year :: rest)).1 = (compactOps zstd d rest).1 ∧
      ((∃ created, (compactOps zstd d (year :: rest)).2 = .ok created) ↔
        ∃ created, (compactOps zstd d rest).2 = .ok created) := by
  rw [compactOps, yearOps_of_none h]
  have hsame : d.applyAll [] = d := rfl
  simp only [hsame, List.nil_append, true_and]
  cases (compactOps zstd d rest).2 <;> simp [Except.map]

theorem finishes_of_none (h : monthsIn d.keys year = []) :
    Finishes zstd d (year :: rest) final ↔ Finishes zstd d rest final := by
  rw [Finishes, Finishes, (compactOps_of_none h).1, (compactOps_of_none h).2]

theorem finishes_append (done : List ℕ) (h : ∀ year ∈ done, monthsIn d.keys year = []) :
    Finishes zstd d (done ++ rest) final ↔ Finishes zstd d rest final := by
  induction done with
  | nil => rfl
  | cons year done ih =>
      rw [List.forall_mem_cons] at h
      rw [List.cons_append, finishes_of_none h.1, ih h.2]

theorem applyAll_yearOps (hne : monthsIn d.keys year ≠ [])
    (hdecodes : Decodes zstd d (monthsIn d.keys year)) : d.applyAll (yearOps zstd d year).1 =
      merged zstd d year (monthsIn d.keys year) (monthsIn d.keys year) := by
  rw [yearOps_of_decodes hne hdecodes, applyAll_renamed]
  rfl

/-- A year with months: they have to be readable, and the run goes on where they are merged. -/
theorem finishes_cons (hne : monthsIn d.keys year ≠ []) :
    Finishes zstd d (year :: rest) final ↔ Decodes zstd d (monthsIn d.keys year) ∧
      Finishes zstd (merged zstd d year (monthsIn d.keys year) (monthsIn d.keys year)) rest
        final := by
  by_cases hdecodes : Decodes zstd d (monthsIn d.keys year)
  · have hmerged := applyAll_yearOps hne hdecodes
    have hops := yearOps_of_decodes hne hdecodes
    rw [and_iff_right hdecodes, Finishes, Finishes, compactOps]
    rw [hops] at hmerged ⊢
    dsimp only at hmerged ⊢
    rw [hmerged, Directory.applyAll_append, hmerged]
    refine and_congr_left fun _ => ?_
    cases (compactOps zstd (merged zstd d year (monthsIn d.keys year) (monthsIn d.keys year))
      rest).2 <;> simp [Except.map]
  · obtain ⟨ops, e, hops, -⟩ := yearOps_of_not hne hdecodes
    refine iff_of_false (fun h => ?_) fun h => hdecodes h.1
    obtain ⟨⟨created, hcreated⟩, -⟩ := h
    rw [compactOps, hops] at hcreated
    cases hcreated

theorem monthly_ne (other : ℕ) (h : 'M' ∈ name.toList) :
    name ≠ annualName other ∧ name ≠ temporaryName other := by
  constructor
  · rintro rfl
    simp [annualName, String.toList_append, not_mem_padded] at h
  · rintro rfl
    simp [temporaryName, String.toList_append, not_mem_padded] at h

theorem annualName_notMem_monthsIn {names : Finset String} :
    annualName other ∉ monthsIn names year := fun h =>
  not_isMonthly_annualName (mem_monthsIn.1 h).2

theorem pairwise_monthsIn (names : Finset String) (year : ℕ) :
    (monthsIn names year).Pairwise (· < ·) := (Finset.sortedLT_sort _).pairwise

/-- A sorted list of the months is the list of the months. -/
theorem monthsIn_eq {names : Finset String} {months : List String}
    (hsorted : months.Pairwise (· < ·))
    (hmem : ∀ name, name ∈ months ↔ name ∈ names ∧ isMonthly year name) :
    monthsIn names year = months := by
  have hset : (names.filter fun name => isMonthly year name) = months.toFinset := by
    ext name
    rw [Finset.mem_filter, List.mem_toFinset, hmem]
  rw [monthsIn, hset]
  exact (List.toFinset_sort (· ≤ ·) (hsorted.imp ne_of_lt)).2 (hsorted.imp le_of_lt)

variable {gone kept : List String}

theorem lookup_merged_monthly (hgone : annualName year ∉ gone) (h : 'M' ∈ name.toList)
    (hnot : name ∉ gone) : (merged zstd d year gone kept).lookup name = d.lookup name := by
  obtain ⟨hannual, htemporary⟩ := monthly_ne year h
  rw [lookup_merged hgone, if_neg hannual, if_neg (not_or.2 ⟨htemporary, hnot⟩)]

theorem mem_keys_merged (hgone : annualName year ∉ gone) (h : 'M' ∈ name.toList) :
    name ∈ (merged zstd d year gone kept).keys ↔ name ∈ d.keys ∧ name ∉ gone := by
  obtain ⟨hannual, htemporary⟩ := monthly_ne year h
  rw [Finmap.mem_keys, Finmap.mem_keys, ← Finmap.lookup_isSome, ← Finmap.lookup_isSome,
    lookup_merged hgone, if_neg hannual]
  by_cases hmem : name ∈ gone <;> simp [hmem, htemporary]

theorem monthsIn_merged_nil (hgone : annualName year ∉ gone) (h : monthsIn d.keys other = []) :
    monthsIn (merged zstd d year gone kept).keys other = [] := by
  refine List.eq_nil_iff_forall_not_mem.2 fun name hname => ?_
  obtain ⟨hmem, hmonth⟩ := mem_monthsIn.1 hname
  have hold := ((mem_keys_merged hgone (isMonthly_iff.1 hmonth).2).1 hmem).1
  have hin := mem_monthsIn.2 ⟨hold, hmonth⟩
  rw [h] at hin
  cases hin

/-- Where the first months have been removed the last ones are found. -/
theorem monthsIn_merged (removed : ℕ) :
    monthsIn (merged zstd d year ((monthsIn d.keys year).take removed) kept).keys year =
      (monthsIn d.keys year).drop removed := by
  have hgone : annualName year ∉ (monthsIn d.keys year).take removed := fun h =>
    annualName_notMem_monthsIn (List.mem_of_mem_take h)
  have hsorted := pairwise_monthsIn d.keys year
  have hsplit := List.take_append_drop removed (monthsIn d.keys year)
  refine monthsIn_eq (hsorted.sublist (List.drop_sublist _ _)) fun name => ?_
  constructor
  · intro hname
    obtain ⟨hmem, hmonth⟩ := mem_monthsIn.1 (List.mem_of_mem_drop hname)
    refine ⟨(mem_keys_merged hgone (isMonthly_iff.1 hmonth).2).2 ⟨hmem, fun hfirst => ?_⟩, hmonth⟩
    rw [← hsplit, List.pairwise_append] at hsorted
    exact lt_irrefl _ (hsorted.2.2 name hfirst name hname)
  · rintro ⟨hmem, hmonth⟩
    obtain ⟨hold, hnot⟩ := (mem_keys_merged hgone (isMonthly_iff.1 hmonth).2).1 hmem
    have hin := mem_monthsIn.2 ⟨hold, hmonth⟩
    rw [← hsplit, List.mem_append] at hin
    exact hin.resolve_left hnot

theorem monthsIn_merged_all :
    monthsIn (merged zstd d year (monthsIn d.keys year) kept).keys year = [] := by
  have h : monthsIn (merged zstd d year ((monthsIn d.keys year).take _) kept).keys year = _ :=
    monthsIn_merged (monthsIn d.keys year).length
  rwa [List.take_length, List.drop_length] at h

/-- A second merge takes the months that are left, and the first one is lost. -/
theorem merged_merged (removed : ℕ) :
    merged zstd (merged zstd d year ((monthsIn d.keys year).take removed) kept) year
      ((monthsIn d.keys year).drop removed) ((monthsIn d.keys year).drop removed) =
        merged zstd d year (monthsIn d.keys year) ((monthsIn d.keys year).drop removed) := by
  have hall : annualName year ∉ monthsIn d.keys year := annualName_notMem_monthsIn
  have hfirst : annualName year ∉ (monthsIn d.keys year).take removed := fun h =>
    hall (List.mem_of_mem_take h)
  have hlast : annualName year ∉ (monthsIn d.keys year).drop removed := fun h =>
    hall (List.mem_of_mem_drop h)
  have hsplit := List.take_append_drop removed (monthsIn d.keys year)
  have htexts : ((monthsIn d.keys year).drop removed).map (textOf zstd
      (merged zstd d year ((monthsIn d.keys year).take removed) kept)) =
        ((monthsIn d.keys year).drop removed).map (textOf zstd d) := by
    refine List.map_congr_left fun name hname => textOf_congr (lookup_merged_monthly hfirst
      (isMonthly_iff.1 (mem_monthsIn.1 (List.mem_of_mem_drop hname)).2).2 fun hold => ?_)
    have hsorted := pairwise_monthsIn d.keys year
    rw [← hsplit, List.pairwise_append] at hsorted
    exact lt_irrefl _ (hsorted.2.2 name hold name hname)
  refine Finmap.ext_lookup fun name => ?_
  rw [lookup_merged hlast, lookup_merged hall, lookup_merged hfirst, htexts]
  have hmem : name ∈ monthsIn d.keys year ↔ name ∈ (monthsIn d.keys year).take removed ∨
      name ∈ (monthsIn d.keys year).drop removed := by
    rw [← List.mem_append, hsplit]
  by_cases hannual : name = annualName year
  · simp [hannual]
  · rw [if_neg hannual, if_neg hannual, if_neg hannual]
    by_cases hlate : name = temporaryName year ∨ name ∈ (monthsIn d.keys year).drop removed
    · rw [if_pos hlate, if_pos (hlate.imp_right fun h => hmem.2 (.inr h))]
    · rw [if_neg hlate]
      rw [not_or] at hlate
      simp only [hmem, hlate.1, hlate.2, false_or, or_false]

/-! ## A crash and a second run -/

/-- What a second run can end with: it merges the months that a crash has left of one year. -/
def Outcome (zstd : Zstd) : Directory → List ℕ → Directory → Prop
  | d, [], final => final = d
  | d, year :: rest, final =>
      if monthsIn d.keys year = [] then Outcome zstd d rest final
      else
        Decodes zstd d (monthsIn d.keys year) ∧
          ((∃ removed < (monthsIn d.keys year).length, Finishes zstd (merged zstd d year
            (monthsIn d.keys year) ((monthsIn d.keys year).drop removed)) rest final) ∨
          Outcome zstd (merged zstd d year (monthsIn d.keys year) (monthsIn d.keys year)) rest final)

theorem compactOps_of_decodes (hne : monthsIn d.keys year ≠ [])
    (hdecodes : Decodes zstd d (monthsIn d.keys year)) :
    (compactOps zstd d (year :: rest)).1 = (yearOps zstd d year).1 ++
      (compactOps zstd (merged zstd d year (monthsIn d.keys year) (monthsIn d.keys year))
        rest).1 := by
  have hmerged := applyAll_yearOps hne hdecodes
  rw [compactOps]
  rw [yearOps_of_decodes hne hdecodes] at hmerged ⊢
  dsimp only at hmerged ⊢
  rw [hmerged]

theorem monthsIn_insert (contents : Bytes) :
    monthsIn (d.insert (temporaryName year) contents).keys other = monthsIn d.keys other := by
  refine monthsIn_congr fun name hname => ?_
  have hne := (monthly_ne year (isMonthly_iff.1 hname).2).2
  rw [Finmap.mem_keys, Finmap.mem_keys, Finmap.mem_insert, or_iff_right hne]

theorem decodes_congr (h : ∀ name ∈ names, d.lookup name = d'.lookup name) :
    Decodes zstd d names ↔ Decodes zstd d' names :=
  forall₂_congr fun name hname => by rw [readBackupText_congr (h name hname)]

/-- A temporary file that is left over makes no difference. -/
theorem finishes_insert (hne : monthsIn d.keys year ≠ []) (contents : Bytes) :
    Finishes zstd (d.insert (temporaryName year) contents) (year :: rest) final ↔
      Finishes zstd d (year :: rest) final := by
  have hsame : ∀ name ∈ monthsIn d.keys year,
      (d.insert (temporaryName year) contents).lookup name = d.lookup name := fun name hname =>
    Finmap.lookup_insert_of_ne _ (monthly_ne _ (isMonthly_iff.1 (mem_monthsIn.1 hname).2).2).2
  have htexts : (monthsIn d.keys year).map
      (textOf zstd (d.insert (temporaryName year) contents)) =
        (monthsIn d.keys year).map (textOf zstd d) :=
    List.map_congr_left fun name hname => textOf_congr (hsame name hname)
  rw [finishes_cons (by rwa [monthsIn_insert]), finishes_cons hne, monthsIn_insert,
    decodes_congr hsame, merged, merged, erase_insert, htexts]

/-- After the rename a second run merges the months that are left. -/
theorem finishes_merged (hdecodes : Decodes zstd d (monthsIn d.keys year)) {removed : ℕ}
    (hremoved : removed < (monthsIn d.keys year).length) :
    Finishes zstd (merged zstd d year ((monthsIn d.keys year).take removed) (monthsIn d.keys year))
      (year :: rest) final ↔
        Finishes zstd (merged zstd d year (monthsIn d.keys year)
          ((monthsIn d.keys year).drop removed)) rest final := by
  have hfirst : annualName year ∉ (monthsIn d.keys year).take removed := fun h =>
    annualName_notMem_monthsIn (List.mem_of_mem_take h)
  have hleft : (monthsIn d.keys year).drop removed ≠ [] := by
    rw [Ne, List.drop_eq_nil_iff]
    omega
  have hdecodes' : Decodes zstd (merged zstd d year ((monthsIn d.keys year).take removed)
      (monthsIn d.keys year)) ((monthsIn d.keys year).drop removed) := by
    refine (decodes_congr fun name hname => ?_).2 fun name hname =>
      hdecodes name (List.mem_of_mem_drop hname)
    have hsorted := pairwise_monthsIn d.keys year
    rw [← List.take_append_drop removed (monthsIn d.keys year), List.pairwise_append] at hsorted
    exact lookup_merged_monthly hfirst
      (isMonthly_iff.1 (mem_monthsIn.1 (List.mem_of_mem_drop hname)).2).2
      fun hold => lt_irrefl _ (hsorted.2.2 name hold name hname)
  rw [finishes_cons (by rwa [monthsIn_merged]), monthsIn_merged, and_iff_right hdecodes',
    merged_merged]

theorem finishes_temporary {done : List ℕ} (hdone : ∀ year ∈ done, monthsIn d.keys year = [])
    (hne : monthsIn d.keys year ≠ []) (hstate : d' = d ∨ ∃ contents,
      d' = d.insert (temporaryName year) contents) :
    Finishes zstd d' (done ++ year :: rest) final ↔ Finishes zstd d (year :: rest) final := by
  rcases hstate with rfl | ⟨contents, rfl⟩
  · rw [finishes_append done hdone]
  · rw [finishes_append done fun y hy => by rw [monthsIn_insert]; exact hdone y hy,
      finishes_insert hne]

/-- A crash within a year that has months, or after it. -/
theorem crash_year_iff {done : List ℕ} (hdone : ∀ year ∈ done, monthsIn d.keys year = [])
    (hne : monthsIn d.keys year ≠ []) (hdecodes : Decodes zstd d (monthsIn d.keys year))
    (more : List FileOp) :
    (∃ steps, Finishes zstd (d.applyAll (((yearOps zstd d year).1 ++ more).take steps))
      (done ++ year :: rest) final) ↔
        (∃ removed < (monthsIn d.keys year).length, Finishes zstd (merged zstd d year
          (monthsIn d.keys year) ((monthsIn d.keys year).drop removed)) rest final) ∨
        ∃ later, Finishes zstd (Directory.applyAll (merged zstd d year (monthsIn d.keys year)
          (monthsIn d.keys year)) (more.take later)) (done ++ year :: rest) final := by
  have hrerun : ∀ removed < (monthsIn d.keys year).length,
      (Finishes zstd (d.applyAll (((yearOps zstd d year).1 ++ more).take
        (writeCount zstd d year + 1 + removed))) (done ++ year :: rest) final ↔
          Finishes zstd (merged zstd d year (monthsIn d.keys year)
            ((monthsIn d.keys year).drop removed)) rest final) := by
    intro removed hremoved
    have hfirst : annualName year ∉ (monthsIn d.keys year).take removed := fun h =>
      annualName_notMem_monthsIn (List.mem_of_mem_take h)
    rw [crash_late hne hdecodes, Nat.sub_eq_zero_of_le hremoved.le, List.take_zero,
      ← finishes_merged hdecodes hremoved]
    exact finishes_append done fun y hy => monthsIn_merged_nil hfirst (hdone y hy)
  constructor
  · rintro ⟨steps, hfinishes⟩
    rcases Nat.lt_or_ge (writeCount zstd d year) steps with hlate | hearly
    · obtain ⟨removed, rfl⟩ : ∃ removed, steps = writeCount zstd d year + 1 + removed :=
        ⟨steps - (writeCount zstd d year + 1), by omega⟩
      rcases Nat.lt_or_ge removed (monthsIn d.keys year).length with hremoved | hall
      · exact .inl ⟨removed, hremoved, (hrerun removed hremoved).1 hfinishes⟩
      · rw [crash_late hne hdecodes, List.take_of_length_le hall] at hfinishes
        exact .inr ⟨_, hfinishes⟩
    · rw [finishes_temporary hdone hne (crash_early hne hdecodes _ hearly),
        finishes_cons hne] at hfinishes
      exact .inl ⟨0, List.length_pos_of_ne_nil hne, hfinishes.2⟩
  · rintro (⟨removed, hremoved, hfinishes⟩ | ⟨later, hfinishes⟩)
    · exact ⟨_, (hrerun removed hremoved).2 hfinishes⟩
    · refine ⟨writeCount zstd d year + 1 + ((monthsIn d.keys year).length + later), ?_⟩
      rw [crash_late hne hdecodes, List.take_of_length_le (Nat.le_add_right _ _),
        Nat.add_sub_cancel_left]
      exact hfinishes

/-- The outcomes are what the runs after a crash end with. -/
theorem crash_finishes_iff (years : List ℕ) {done : List ℕ}
    (hdone : ∀ year ∈ done, monthsIn d.keys year = []) :
    (∃ steps, Finishes zstd (d.applyAll ((compactOps zstd d years).1.take steps))
      (done ++ years) final) ↔ Outcome zstd d years final := by
  induction years generalizing d done with
  | nil =>
      have hstate : ∀ steps, d.applyAll ((compactOps zstd d []).1.take steps) = d := fun steps => by
        rw [compactOps, List.take_nil]
        rfl
      simp only [hstate, finishes_append done hdone, finishes_nil, exists_const, Outcome]
  | cons year rest ih =>
      rw [Outcome]
      split_ifs with hnone
      · have hdone' : ∀ y ∈ done ++ [year], monthsIn d.keys y = [] :=
          List.forall_mem_append.2 ⟨hdone, by simpa⟩
        have hnext := ih hdone'
        rw [List.append_assoc] at hnext
        rw [(compactOps_of_none hnone).1]
        exact hnext
      · by_cases hdecodes : Decodes zstd d (monthsIn d.keys year)
        · have hdone' : ∀ y ∈ done ++ [year], monthsIn (merged zstd d year (monthsIn d.keys year)
              (monthsIn d.keys year)).keys y = [] :=
            List.forall_mem_append.2
              ⟨fun y hy => monthsIn_merged_nil annualName_notMem_monthsIn (hdone y hy),
                by simpa using monthsIn_merged_all⟩
          have hnext := ih hdone'
          rw [List.append_assoc, List.singleton_append] at hnext
          rw [and_iff_right hdecodes, ← hnext, compactOps_of_decodes hnone hdecodes]
          exact crash_year_iff hdone hnone hdecodes _
        · refine iff_of_false ?_ fun h => hdecodes h.1
          rintro ⟨steps, hfinishes⟩
          obtain ⟨ops, e, hops, hwrites⟩ := yearOps_of_not hnone hdecodes
          rw [compactOps, hops, finishes_temporary hdone hnone (applyAll_writes fun op hop =>
            hwrites op (List.mem_of_mem_take hop)), finishes_cons hnone] at hfinishes
          exact hdecodes hfinishes.1

end

end BackupCompaction

end IeumChain
