import IeumChain.BackupCompaction

/-!
# The blocks of compacted backups

A compaction that is cut off while it removes the months of a year is not repaired by the next one:
that merges the months that are left and renames the result over the annual file, which had them
all. An annual file from before is lost in the same way. The blocks are kept if they stand
somewhere else.
-/
namespace IeumChain

open ByteCodec Text Outcome Journal PaddedNames KeyedLists

namespace BackupCompaction

/-- The years with their monthly files. A file that two years could take goes to the first. -/
def groups (names : Finset String) : List ℕ → List (ℕ × List String)
  | [] => []
  | year :: rest =>
      let monthly := monthsIn names year
      if monthly = [] then groups names rest
      else (year, monthly) :: groups (names.filter (· ∉ monthly)) rest

/-- What is merged where a crash removes the first months of one year. -/
def cutAt (year removed : ℕ) (g : ℕ × List String) : List String :=
  if g.1 = year then g.2.drop removed else g.2

section
variable (zstd : Zstd) (read : String → Except String Block)

/-- After a crash anywhere and a run that comes to its end all blocks are there. -/
def KeepsBlocks (d : Directory) (currentYear : ℤ) : Prop :=
  ∀ blocks, readBackupBlocks zstd read d = .ok blocks →
    ∀ steps final created, compactOldBackups zstd (crashed zstd d currentYear steps) currentYear =
      (final, .ok created) →
        ∃ after, readBackupBlocks zstd read final = .ok after ∧ ∀ b ∈ blocks, b ∈ after

def mergedText (d : Directory) (names : List String) : String :=
  String.join (names.map (textOf zstd d))

/-- The merged texts are blocks, and each block is in one of them or in a file that stays. -/
structure Covers (d : Directory) (gs : List (ℕ × List String))
    (kept : ℕ × List String → List String) (blocks : List Block) : Prop where
  parsed : ∀ g ∈ gs, ∃ bs, parseBlocks read (mergedText zstd d (kept g)) = .ok bs
  covered : ∀ b ∈ blocks,
    (∃ g ∈ gs, ∃ bs, parseBlocks read (mergedText zstd d (kept g)) = .ok bs ∧ b ∈ bs) ∨
      ∃ name ∈ d, isBackupName name ∧ (∀ g ∈ gs, name ≠ annualName g.1 ∧ name ∉ g.2) ∧
        ∃ bs, fileBlocks zstd read d name = .ok bs ∧ b ∈ bs

/-- Wherever some months of a year are removed before the others are merged once more, every block
is still somewhere. Where a month cannot be read no run comes to its end. -/
def Safe (d : Directory) (currentYear : ℤ) : Prop :=
  ∀ blocks, readBackupBlocks zstd read d = .ok blocks →
    (∀ g ∈ groups d.keys (compactedYears currentYear), Decodes zstd d g.2) →
      ∀ g ∈ groups d.keys (compactedYears currentYear), ∀ removed < g.2.length,
        Covers zstd read d (groups d.keys (compactedYears currentYear)) (cutAt g.1 removed) blocks

end

section
variable {year : ℕ} {name : String} {names names' : Finset String}

theorem isBackupName_annualName : isBackupName (annualName year) = true := isBackupName_append _

theorem not_isBackupName_temporaryName : ¬isBackupName (temporaryName year) = true := by
  rw [isBackupName, Bool.or_eq_true, List.isSuffixOf_iff_suffix, List.isSuffixOf_iff_suffix]
  rintro (⟨front, h⟩ | ⟨front, h⟩)
  · have hlast := congrArg List.getLast? h
    simp [temporaryName, String.toList_append] at hlast
  · have hlast := congrArg List.getLast? h
    simp [temporaryName, String.toList_append] at hlast

theorem isZst_annualName : isZst (annualName year) = true := by
  have hlist : (annualName year).toList =
      ((padded 4 year).toList ++ ".jsonl".toList) ++ ".zst".toList := by
    rw [annualName, String.toList_append, List.append_assoc]
    rfl
  have hne : annualName year ≠ ".zst" := by
    intro h
    rw [h] at hlist
    have hlength := congrArg List.length hlist
    simp at hlength
  rw [isZst, Bool.and_eq_true, List.isSuffixOf_iff_suffix, decide_eq_true_eq, hlist]
  exact ⟨List.suffix_append _ _, hne⟩

theorem groups_congr (h : ∀ name, 'M' ∈ name.toList → (name ∈ names ↔ name ∈ names'))
    (years : List ℕ) : groups names years = groups names' years := by
  induction years generalizing names names' with
  | nil => rfl
  | cons year rest ih =>
      have hmonths : monthsIn names year = monthsIn names' year := by
        refine monthsIn_congr fun name hname => h name ?_
        exact (isMonthly_iff.1 hname).2
      simp only [groups, hmonths]
      split_ifs
      · exact ih h
      · rw [ih fun name hname => ?_]
        rw [Finset.mem_filter, Finset.mem_filter, h name hname]

/-- A group has the monthly files of one of the years. -/
theorem mem_groups {years : List ℕ} {g : ℕ × List String} (h : g ∈ groups names years) :
    g.1 ∈ years ∧ g.2 ≠ [] ∧ ∀ name ∈ g.2, name ∈ names ∧ isMonthly g.1 name := by
  induction years generalizing names with
  | nil => cases h
  | cons year rest ih =>
      rw [groups] at h
      split_ifs at h with hnone
      · obtain ⟨hyear, hmonths⟩ := ih h
        exact ⟨List.mem_cons_of_mem _ hyear, hmonths⟩
      · rcases List.mem_cons.1 h with rfl | hrest
        · exact ⟨List.mem_cons_self, hnone, fun name hname => mem_monthsIn.1 hname⟩
        · obtain ⟨hyear, hne, hmonths⟩ := ih hrest
          refine ⟨List.mem_cons_of_mem _ hyear, hne, fun name hname => ?_⟩
          obtain ⟨hmem, hmonth⟩ := hmonths name hname
          exact ⟨(Finset.mem_filter.1 hmem).1, hmonth⟩

end

/-! ## The directory at the end -/

section
variable {zstd : Zstd} {read : String → Except String Block} {d final : Directory} {year : ℕ}
  {name : String} {rest : List ℕ} {kept : List String}

/-- Every year with months has an annual file with what was kept of them, and other files stay. -/
structure Compacted (zstd : Zstd) (d : Directory) (gs : List (ℕ × List String))
    (kept : ℕ × List String → List String) (final : Directory) : Prop where
  annual : ∀ g ∈ gs,
    final.lookup (annualName g.1) = some (zstd.finish ((kept g).map (textOf zstd d)))
  gone : ∀ g ∈ gs, ∀ name ∈ g.2, final.lookup name = none
  stays : ∀ name, (∀ g ∈ gs, name ≠ annualName g.1 ∧ name ≠ temporaryName g.1 ∧ name ∉ g.2) →
    final.lookup name = d.lookup name

theorem groups_cons (zstd : Zstd) (hne : monthsIn d.keys year ≠ []) (kept : List String) :
    groups d.keys (year :: rest) = (year, monthsIn d.keys year) ::
      groups (merged zstd d year (monthsIn d.keys year) kept).keys rest := by
  rw [groups, if_neg hne]
  congr 1
  refine groups_congr (fun name hname => ?_) rest
  rw [Finset.mem_filter, mem_keys_merged annualName_notMem_monthsIn hname]

/-- A group of the later years. -/
theorem mem_groups_merged {g : ℕ × List String}
    (h : g ∈ groups (merged zstd d year (monthsIn d.keys year) kept).keys rest) :
    g.1 ∈ rest ∧ ∀ name ∈ g.2, 'M' ∈ name.toList ∧ name ∉ monthsIn d.keys year ∧
      (merged zstd d year (monthsIn d.keys year) kept).lookup name = d.lookup name := by
  obtain ⟨hyear, -, hmonths⟩ := mem_groups h
  refine ⟨hyear, fun name hname => ?_⟩
  obtain ⟨hmem, hmonth⟩ := hmonths name hname
  have hM := (isMonthly_iff.1 hmonth).2
  have hnot := ((mem_keys_merged annualName_notMem_monthsIn hM).1 hmem).2
  exact ⟨hM, hnot, lookup_merged_monthly annualName_notMem_monthsIn hM hnot⟩

theorem Compacted.congr {gs : List (ℕ × List String)} {kept kept' : ℕ × List String → List String}
    (h : Compacted zstd d gs kept final) (hsame : ∀ g ∈ gs, kept g = kept' g) :
    Compacted zstd d gs kept' final :=
  ⟨fun g hg => hsame g hg ▸ h.annual g hg, h.gone, h.stays⟩

/-- One year more. -/
theorem Compacted.cons {kept : ℕ × List String → List String} {first : List String}
    (hyear : year ∉ rest) (hne : monthsIn d.keys year ≠ [])
    (hfirst : kept (year, monthsIn d.keys year) = first) (hkept : ∀ g, ∀ name ∈ kept g, name ∈ g.2)
    (h : Compacted zstd (merged zstd d year (monthsIn d.keys year) first)
      (groups (merged zstd d year (monthsIn d.keys year) first).keys rest) kept final) :
    Compacted zstd d (groups d.keys (year :: rest)) kept final := by
  have hall : annualName year ∉ monthsIn d.keys year := annualName_notMem_monthsIn
  rw [groups_cons zstd hne first]
  refine ⟨List.forall_mem_cons.2 ⟨?_, fun g hg => ?_⟩,
    List.forall_mem_cons.2 ⟨fun name hname => ?_, h.gone⟩, fun name hname => ?_⟩
  · rw [h.stays, lookup_merged hall, if_pos rfl, hfirst]
    intro g hg
    obtain ⟨hmem, hmonths⟩ := mem_groups_merged hg
    have hother : year ≠ g.1 := fun heq => hyear (heq ▸ hmem)
    refine ⟨annualName_ne hother, annualName_ne_temporaryName, fun hin => ?_⟩
    exact (monthly_ne _ (hmonths _ hin).1).1 rfl
  · rw [h.annual g hg]
    refine congrArg (fun texts => some (zstd.finish texts)) (List.map_congr_left fun name hname => ?_)
    exact textOf_congr ((mem_groups_merged hg).2 name (hkept g name hname)).2.2
  · have hM := (isMonthly_iff.1 (mem_monthsIn.1 hname).2).2
    rw [h.stays, lookup_merged hall, if_neg (monthly_ne _ hM).1, if_pos (.inr hname)]
    intro g hg
    exact ⟨(monthly_ne _ hM).1, (monthly_ne _ hM).2,
      fun hin => ((mem_groups_merged hg).2 name hin).2.1 hname⟩
  · rw [List.forall_mem_cons] at hname
    obtain ⟨⟨hannual, htemporary, hnot⟩, hothers⟩ := hname
    rw [h.stays name hothers, lookup_merged hall, if_neg hannual,
      if_neg (not_or.2 ⟨htemporary, hnot⟩)]

theorem decodes_groups_cons (hne : monthsIn d.keys year ≠ []) (kept : List String) :
    (∀ g ∈ groups d.keys (year :: rest), Decodes zstd d g.2) ↔
      Decodes zstd d (monthsIn d.keys year) ∧
        ∀ g ∈ groups (merged zstd d year (monthsIn d.keys year) kept).keys rest,
          Decodes zstd (merged zstd d year (monthsIn d.keys year) kept) g.2 := by
  rw [groups_cons zstd hne kept, List.forall_mem_cons]
  refine and_congr_right fun _ => forall₂_congr fun g hg => ?_
  exact decodes_congr fun name hname => ((mem_groups_merged hg).2 name hname).2.2.symm

/-- A run that comes to its end has merged all months. -/
theorem finishes_spec {years : List ℕ} (hyears : years.Nodup) (h : Finishes zstd d years final) :
    (∀ g ∈ groups d.keys years, Decodes zstd d g.2) ∧
      Compacted zstd d (groups d.keys years) Prod.snd final := by
  induction years generalizing d with
  | nil =>
      rw [finishes_nil] at h
      exact ⟨nofun, nofun, nofun, fun _ _ => by rw [h]⟩
  | cons year rest ih =>
      rw [List.nodup_cons] at hyears
      by_cases hnone : monthsIn d.keys year = []
      · rw [finishes_of_none hnone] at h
        rw [groups, if_pos hnone]
        exact ih hyears.2 h
      · rw [finishes_cons hnone] at h
        obtain ⟨hrest, hcompacted⟩ := ih hyears.2 h.2
        exact ⟨(decodes_groups_cons hnone _).2 ⟨h.1, hrest⟩,
          hcompacted.cons hyears.1 hnone rfl fun _ _ hname => hname⟩

/-- Where all months can be read a run comes to its end. -/
theorem exists_finishes {years : List ℕ} (h : ∀ g ∈ groups d.keys years, Decodes zstd d g.2) :
    ∃ final, Finishes zstd d years final := by
  induction years generalizing d with
  | nil => exact ⟨d, finishes_nil.2 rfl⟩
  | cons year rest ih =>
      by_cases hnone : monthsIn d.keys year = []
      · rw [groups, if_pos hnone] at h
        simp only [finishes_of_none hnone]
        exact ih h
      · obtain ⟨hmonths, hrest⟩ := (decodes_groups_cons hnone (monthsIn d.keys year)).1 h
        simp only [finishes_cons hnone, hmonths, true_and]
        exact ih hrest

theorem cutAt_self (months : List String) (removed : ℕ) :
    cutAt year removed (year, months) = months.drop removed := if_pos rfl

theorem mem_cutAt {removed : ℕ} (g : ℕ × List String) : ∀ name ∈ cutAt year removed g, name ∈ g.2 := by
  intro name hname
  rw [cutAt] at hname
  split_ifs at hname
  · exact List.mem_of_mem_drop hname
  · exact hname

/-- The months of one year are cut short, those of the later ones are merged. -/
theorem compacted_cut (hyears : (year :: rest).Nodup) (hne : monthsIn d.keys year ≠ [])
    {removed : ℕ} (h : Finishes zstd (merged zstd d year (monthsIn d.keys year)
      ((monthsIn d.keys year).drop removed)) rest final) :
    Compacted zstd d (groups d.keys (year :: rest)) (cutAt year removed) final := by
  rw [List.nodup_cons] at hyears
  refine ((finishes_spec hyears.2 h).2.congr fun g hg => ?_).cons hyears.1 hne
    (cutAt_self _ _) mem_cutAt
  have hother : g.1 ≠ year := fun heq => hyears.1 (heq ▸ (mem_groups_merged hg).1)
  exact (if_neg hother).symm

/-- What a second run ends with. -/
theorem outcome_spec {years : List ℕ} (hyears : years.Nodup) (h : Outcome zstd d years final) :
    (∀ g ∈ groups d.keys years, Decodes zstd d g.2) ∧
      (groups d.keys years = [] ∧ final = d ∨ ∃ g ∈ groups d.keys years,
        ∃ removed < g.2.length, Compacted zstd d (groups d.keys years) (cutAt g.1 removed) final) := by
  induction years generalizing d with
  | nil => exact ⟨List.forall_mem_nil _, .inl ⟨rfl, h⟩⟩
  | cons year rest ih =>
      rw [Outcome] at h
      split_ifs at h with hnone
      · rw [groups, if_pos hnone]
        exact ih (List.nodup_cons.1 hyears).2 h
      · obtain ⟨hmonths, ⟨removed, hremoved, hfinishes⟩ | hlater⟩ := h
        · have hrest := (finishes_spec (List.nodup_cons.1 hyears).2 hfinishes).1
          refine ⟨(decodes_groups_cons hnone _).2 ⟨hmonths, hrest⟩, .inr ⟨(year, monthsIn d.keys year),
            ?_, removed, hremoved, compacted_cut hyears hnone hfinishes⟩⟩
          rw [groups, if_neg hnone]
          exact List.mem_cons_self
        · obtain ⟨hrest, hcases⟩ := ih (List.nodup_cons.1 hyears).2 hlater
          refine ⟨(decodes_groups_cons hnone _).2 ⟨hmonths, hrest⟩, .inr ?_⟩
          rcases hcases with ⟨hnil, rfl⟩ | ⟨g, hg, removed, hremoved, hcompacted⟩
          · have hdone : Compacted zstd (merged zstd d year (monthsIn d.keys year)
                (monthsIn d.keys year)) (groups (merged zstd d year (monthsIn d.keys year)
                  (monthsIn d.keys year)).keys rest) (cutAt year 0) (merged zstd d year
                    (monthsIn d.keys year) (monthsIn d.keys year)) := by
              rw [hnil]
              exact ⟨List.forall_mem_nil _, List.forall_mem_nil _, fun _ _ => rfl⟩
            refine ⟨(year, monthsIn d.keys year), ?_, 0, List.length_pos_of_ne_nil hnone,
              hdone.cons (List.nodup_cons.1 hyears).1 hnone (cutAt_self _ _) mem_cutAt⟩
            rw [groups, if_neg hnone]
            exact List.mem_cons_self
          · have hother : g.1 ≠ year := fun heq =>
              (List.nodup_cons.1 hyears).1 (heq ▸ (mem_groups_merged hg).1)
            refine ⟨g, ?_, removed, hremoved, hcompacted.cons (List.nodup_cons.1 hyears).1 hnone
              (if_neg hother.symm) mem_cutAt⟩
            rw [groups_cons zstd hnone (monthsIn d.keys year)]
            exact List.mem_cons_of_mem _ hg

/-- Every such end is reached. -/
theorem exists_outcome {years : List ℕ} (hyears : years.Nodup)
    (hdecodes : ∀ g ∈ groups d.keys years, Decodes zstd d g.2) {g : ℕ × List String}
    (hg : g ∈ groups d.keys years) {removed : ℕ} (hremoved : removed < g.2.length) :
    ∃ final, Outcome zstd d years final ∧
      Compacted zstd d (groups d.keys years) (cutAt g.1 removed) final := by
  induction years generalizing d with
  | nil => cases hg
  | cons year rest ih =>
      by_cases hnone : monthsIn d.keys year = []
      · simp only [groups, if_pos hnone, Outcome] at hdecodes hg ⊢
        exact ih (List.nodup_cons.1 hyears).2 hdecodes hg
      · simp only [Outcome, if_neg hnone]
        rw [groups_cons zstd hnone (monthsIn d.keys year)] at hg
        rcases List.mem_cons.1 hg with rfl | hlater
        · obtain ⟨hmonths, hrest⟩ :=
            (decodes_groups_cons hnone ((monthsIn d.keys year).drop removed)).1 hdecodes
          obtain ⟨final, hfinishes⟩ := exists_finishes hrest
          exact ⟨final, ⟨hmonths, .inl ⟨removed, hremoved, hfinishes⟩⟩,
            compacted_cut hyears hnone hfinishes⟩
        · obtain ⟨hmonths, hrest⟩ :=
            (decodes_groups_cons hnone (monthsIn d.keys year)).1 hdecodes
          obtain ⟨final, houtcome, hcompacted⟩ :=
            ih (List.nodup_cons.1 hyears).2 hrest hlater
          have hother : g.1 ≠ year := fun heq =>
            (List.nodup_cons.1 hyears).1 (heq ▸ (mem_groups_merged hlater).1)
          exact ⟨final, ⟨hmonths, .inr houtcome⟩, hcompacted.cons (List.nodup_cons.1 hyears).1 hnone
            (if_neg hother.symm) mem_cutAt⟩

/-! ## The blocks at the end -/

theorem exists_readBackupBlocks : (∃ blocks, readBackupBlocks zstd read d = .ok blocks) ↔
    ∀ name ∈ d, isBackupName name → ∃ bs, fileBlocks zstd read d name = .ok bs := by
  have hfiles := exists_mapM_eq_ok (f := fileBlocks zstd read d)
    (l := (d.keys.sort (· ≤ ·)).filter fun name => isBackupName name)
  simp only [List.mem_filter, Finset.mem_sort, Finmap.mem_keys, and_imp] at hfiles
  rw [← hfiles]
  simp only [readBackupBlocks, bind_eq_ok, pure_eq_ok]
  constructor
  · rintro ⟨blocks, files, hok, -⟩
    exact ⟨files, hok⟩
  · rintro ⟨files, hok⟩
    exact ⟨_, files, hok, rfl⟩

theorem mem_readBackupBlocks {blocks : List Block} (h : readBackupBlocks zstd read d = .ok blocks)
    {b : Block} : b ∈ blocks ↔ ∃ name ∈ d, isBackupName name ∧
      ∃ bs, fileBlocks zstd read d name = .ok bs ∧ b ∈ bs := by
  simp only [readBackupBlocks, bind_eq_ok, pure_eq_ok] at h
  obtain ⟨files, hfiles, rfl⟩ := h
  rw [mem_sortByKey, List.mem_flatten]
  simp only [mem_of_mapM_eq_ok hfiles, List.mem_filter, Finset.mem_sort, Finmap.mem_keys]
  constructor
  · rintro ⟨bs, ⟨name, ⟨hmem, hbackup⟩, hbs⟩, hb⟩
    exact ⟨name, hmem, hbackup, bs, hbs, hb⟩
  · rintro ⟨name, hmem, hbackup, bs, hbs, hb⟩
    exact ⟨bs, ⟨name, ⟨hmem, hbackup⟩, hbs⟩, hb⟩

variable {gs : List (ℕ × List String)} {kept : ℕ × List String → List String}

theorem readBackupText_finish {texts : List String} (hzst : isZst name)
    (h : d.lookup name = some (zstd.finish texts)) :
    readBackupText zstd d name = .ok (String.join texts) := by
  rw [readBackupText, h]
  simp only [okOr, hzst, if_true, zstd.roundTrip, decodeUtf8_utf8, bind_eq_ok, Except.ok.injEq,
    exists_eq_left']

theorem Compacted.fileBlocks_annual (h : Compacted zstd d gs kept final) {g : ℕ × List String}
    (hg : g ∈ gs) : fileBlocks zstd read final (annualName g.1) =
      parseBlocks read (mergedText zstd d (kept g)) := by
  rw [fileBlocks, readBackupText_finish isZst_annualName (h.annual g hg)]
  rfl

theorem Compacted.lookup_stays (h : Compacted zstd d gs kept final) (hbackup : isBackupName name)
    (hstays : ∀ g ∈ gs, name ≠ annualName g.1 ∧ name ∉ g.2) :
    final.lookup name = d.lookup name := by
  refine h.stays name fun g hg => ⟨(hstays g hg).1, ?_, (hstays g hg).2⟩
  rintro rfl
  exact not_isBackupName_temporaryName hbackup

/-- The backups at the end: annual files, and the files that stay. -/
theorem Compacted.mem_iff (h : Compacted zstd d gs kept final) (hbackup : isBackupName name) :
    name ∈ final ↔ (∃ g ∈ gs, name = annualName g.1) ∨
      name ∈ d ∧ ∀ g ∈ gs, name ≠ annualName g.1 ∧ name ∉ g.2 := by
  by_cases hannual : ∃ g ∈ gs, name = annualName g.1
  · obtain ⟨g, hg, rfl⟩ := hannual
    refine iff_of_true ?_ (.inl ⟨g, hg, rfl⟩)
    rw [← Finmap.lookup_isSome, h.annual g hg]
    rfl
  · rw [or_iff_right hannual]
    push Not at hannual
    by_cases hgone : ∃ g ∈ gs, name ∈ g.2
    · obtain ⟨g, hg, hname⟩ := hgone
      refine iff_of_false ?_ fun hstays => (hstays.2 g hg).2 hname
      rw [← Finmap.lookup_eq_none]
      exact h.gone g hg name hname
    · push Not at hgone
      have hstays : ∀ g ∈ gs, name ≠ annualName g.1 ∧ name ∉ g.2 := fun g hg =>
        ⟨hannual g hg, hgone g hg⟩
      rw [and_iff_left hstays, ← Finmap.lookup_isSome, ← Finmap.lookup_isSome,
        h.lookup_stays hbackup hstays]

theorem Compacted.fileBlocks_stays (h : Compacted zstd d gs kept final)
    (hbackup : isBackupName name) (hstays : ∀ g ∈ gs, name ≠ annualName g.1 ∧ name ∉ g.2) :
    fileBlocks zstd read final name = fileBlocks zstd read d name := by
  rw [fileBlocks, fileBlocks, readBackupText_congr (h.lookup_stays hbackup hstays)]

/-- The blocks are there at the end exactly if the merged texts and the files that stay cover
them. -/
theorem Compacted.contains_iff (h : Compacted zstd d gs kept final) {blocks : List Block}
    (hread : readBackupBlocks zstd read d = .ok blocks) :
    (∃ after, readBackupBlocks zstd read final = .ok after ∧ ∀ b ∈ blocks, b ∈ after) ↔
      Covers zstd read d gs kept blocks := by
  have hold := exists_readBackupBlocks.1 ⟨blocks, hread⟩
  constructor
  · rintro ⟨after, hafter, hall⟩
    have hfiles := exists_readBackupBlocks.1 ⟨after, hafter⟩
    refine ⟨fun g hg => ?_, fun b hb => ?_⟩
    · rw [← h.fileBlocks_annual hg]
      exact hfiles _ ((h.mem_iff isBackupName_annualName).2 (.inl ⟨g, hg, rfl⟩))
        isBackupName_annualName
    · obtain ⟨name, hmem, hbackup, bs, hbs, hin⟩ := (mem_readBackupBlocks hafter).1 (hall b hb)
      rcases (h.mem_iff hbackup).1 hmem with ⟨g, hg, rfl⟩ | ⟨hmem', hstays⟩
      · rw [h.fileBlocks_annual hg] at hbs
        exact .inl ⟨g, hg, bs, hbs, hin⟩
      · rw [h.fileBlocks_stays hbackup hstays] at hbs
        exact .inr ⟨name, hmem', hbackup, hstays, bs, hbs, hin⟩
  · rintro ⟨hparsed, hcovered⟩
    obtain ⟨after, hafter⟩ : ∃ after, readBackupBlocks zstd read final = .ok after := by
      refine exists_readBackupBlocks.2 fun name hmem hbackup => ?_
      rcases (h.mem_iff hbackup).1 hmem with ⟨g, hg, rfl⟩ | ⟨hmem', hstays⟩
      · rw [h.fileBlocks_annual hg]
        exact hparsed g hg
      · rw [h.fileBlocks_stays hbackup hstays]
        exact hold name hmem' hbackup
    refine ⟨after, hafter, fun b hb => (mem_readBackupBlocks hafter).2 ?_⟩
    rcases hcovered b hb with ⟨g, hg, bs, hbs, hin⟩ | ⟨name, hmem, hbackup, hstays, bs, hbs, hin⟩
    · exact ⟨_, (h.mem_iff isBackupName_annualName).2 (.inl ⟨g, hg, rfl⟩), isBackupName_annualName,
        bs, (h.fileBlocks_annual hg).trans hbs, hin⟩
    · exact ⟨name, (h.mem_iff hbackup).2 (.inr ⟨hmem, hstays⟩), hbackup, bs,
        (h.fileBlocks_stays hbackup hstays).trans hbs, hin⟩

end

theorem nodup_compactedYears (currentYear : ℤ) : (compactedYears currentYear).Nodup :=
  List.nodup_range'

theorem parseBlocks_contents {read : String → Except String Block} {blocks : List Block}
    (h : ∀ b ∈ blocks, ReadsBack Block.json read b) :
    parseBlocks read (contentsText Block.json blocks) = .ok blocks := by
  have hlines : (textLines (contentsText Block.json blocks)).reduceOption =
      blocks.map (text Block.json) := by
    have hall := textLines_contents Block.isObject blocks ""
    rw [String.append_empty] at hall
    have hnil : textLines "" = [] := rfl
    rw [hall, hnil, List.append_nil]
    change (blocks.map fun b => some (text Block.json b)).filterMap id = _
    rw [List.filterMap_map]
    exact congrFun (List.filterMap_eq_map (f := text Block.json)) blocks
  have hkept : (blocks.map (text Block.json)).filter (fun line => !isBlank line) =
      blocks.map (text Block.json) := by
    refine List.filter_eq_self.2 fun line hline => ?_
    obtain ⟨b, -, rfl⟩ := List.mem_map.1 hline
    rw [isBlank_text Block.isObject]
    rfl
  rw [parseBlocks, hlines, hkept]
  clear hlines hkept
  induction blocks with
  | nil => rfl
  | cons b rest ih =>
      obtain ⟨hb, hrest⟩ := List.forall_mem_cons.1 h
      rw [ReadsBack] at hb
      rw [List.map_cons, List.mapM_cons, hb, ih hrest]
      rfl

theorem fileBlocks_contents {zstd : Zstd} {read : String → Except String Block} {d : Directory}
    {name : String} {blocks : List Block} (hzst : isZst name)
    (h : d.lookup name = some (zstd.finish [contentsText Block.json blocks]))
    (hreads : ∀ b ∈ blocks, ReadsBack Block.json read b) :
    fileBlocks zstd read d name = .ok blocks := by
  rw [fileBlocks, readBackupText_finish hzst h, bind_eq_ok]
  refine ⟨_, rfl, ?_⟩
  rw [String.join_cons, String.join_nil, String.append_empty, parseBlocks_contents hreads]

theorem compactOldBackups_iff {zstd : Zstd} {d final : Directory} {currentYear : ℤ} :
    (∃ created, compactOldBackups zstd d currentYear = (final, .ok created)) ↔
      Finishes zstd d (compactedYears currentYear) final := by
  simp only [compactOldBackups, Finishes, Prod.mk.injEq]
  tauto

/-- After a crash anywhere in a compaction and a run that comes to its end all blocks are there,
if and only if they are covered wherever some months of a year are missing in its merge. -/
theorem compaction_keeps_iff (zstd : Zstd) (read : String → Except String Block) (d : Directory)
    (currentYear : ℤ) :
    KeepsBlocks zstd read d currentYear ↔ Safe zstd read d currentYear := by
  have hyears := nodup_compactedYears currentYear
  have hrun : ∀ final, (∃ steps created, compactOldBackups zstd
      (crashed zstd d currentYear steps) currentYear = (final, .ok created)) ↔
        Outcome zstd d (compactedYears currentYear) final := by
    intro final
    have hnone : ∀ year ∈ ([] : List ℕ), monthsIn d.keys year = [] := nofun
    rw [← crash_finishes_iff (compactedYears currentYear) hnone]
    exact exists_congr fun steps => compactOldBackups_iff
  constructor
  · intro hkeeps blocks hread hdecodes g hg removed hremoved
    obtain ⟨final, houtcome, hcompacted⟩ := exists_outcome hyears hdecodes hg hremoved
    obtain ⟨steps, created, hfinal⟩ := (hrun final).2 houtcome
    exact (hcompacted.contains_iff hread).1 (hkeeps blocks hread steps final created hfinal)
  · intro hsafe blocks hread steps final created hfinal
    obtain ⟨hdecodes, ⟨-, rfl⟩ | ⟨g, hg, removed, hremoved, hcompacted⟩⟩ :=
      outcome_spec hyears ((hrun final).1 ⟨steps, created, hfinal⟩)
    · exact ⟨blocks, hread, fun b hb => hb⟩
    · exact (hcompacted.contains_iff hread).2 (hsafe blocks hread hdecodes g hg removed hremoved)

end BackupCompaction

/-! Two months with a block each, and a crash after the first one has been removed. -/

namespace TwoMonths

open BackupCompaction

/-- Files that hold their texts as they are. -/
def plain : Zstd where
  flushed texts := utf8 (String.join texts)
  finish texts := utf8 (String.join texts)
  decode := .ok
  roundTrip _ := rfl

def january : Block :=
  { height := 1, previousHash := "", timestamp := 86400, producer := "p", transactions := []
    systemEvents := [], hash := "" }

def february : Block := { january with height := 2, timestamp := 2678400 }

/-- The deserializer, on these blocks. -/
def readBlock (line : String) : Except String Block :=
  if line = text Block.json january then .ok january
  else if line = text Block.json february then .ok february
  else .error "expected value at line 1 column 1"

def backups : Directory :=
  (Finmap.singleton "197001M.jsonl.zst" (plain.finish [contentsText Block.json [january]])).insert
    "197002M.jsonl.zst" (plain.finish [contentsText Block.json [february]])

def months : List String := ["197001M.jsonl.zst", "197002M.jsonl.zst"]

theorem mem_backups {name : String} : name ∈ backups ↔ name ∈ months := by
  simp [backups, months, Finmap.mem_insert, or_comm]

theorem monthsIn_backups : monthsIn backups.keys 1970 = months := by
  refine monthsIn_eq (by decide) fun name => ?_
  rw [Finmap.mem_keys, mem_backups]
  refine ⟨fun h => ⟨h, ?_⟩, fun h => h.1⟩
  revert name
  decide

theorem lookup_january : backups.lookup "197001M.jsonl.zst" =
    some (plain.finish [contentsText Block.json [january]]) := by
  rw [backups, Finmap.lookup_insert_of_ne _ (by decide), Finmap.lookup_singleton_eq]

theorem lookup_february : backups.lookup "197002M.jsonl.zst" =
    some (plain.finish [contentsText Block.json [february]]) := Finmap.lookup_insert _

theorem readsBack_january : ReadsBack Block.json readBlock january := if_pos rfl

theorem readsBack_february : ReadsBack Block.json readBlock february := by
  have hne : text Block.json february ≠ text Block.json january := by decide
  exact (if_neg hne).trans (if_pos rfl)

theorem decodes_backups : Decodes plain backups months := by
  refine List.forall_mem_cons.2 ⟨⟨_, readBackupText_finish (by decide) lookup_january⟩, ?_⟩
  exact List.forall_mem_singleton.2 ⟨_, readBackupText_finish (by decide) lookup_february⟩

theorem groups_backups : groups backups.keys [1970] = [(1970, months)] := by
  rw [groups, monthsIn_backups]
  rfl

/-- The directory after a crash and a second run. -/
def recompacted : Directory := merged plain backups 1970 months (months.drop 1)

/-- The crash is after four writes, the rename and the removal of the first month. -/
theorem finishes_recompacted : Finishes plain (crashed plain backups 1972 6) [1970] recompacted := by
  have hne : monthsIn backups.keys 1970 ≠ [] := by
    rw [monthsIn_backups]
    exact List.cons_ne_nil _ _
  have hdecodes : Decodes plain backups (monthsIn backups.keys 1970) := by
    rw [monthsIn_backups]
    exact decodes_backups
  have hcount : writeCount plain backups 1970 = 4 := by
    rw [writeCount, monthsIn_backups]
    rfl
  have hcrashed : crashed plain backups 1972 6 =
      merged plain backups 1970 ((monthsIn backups.keys 1970).take 1)
        (monthsIn backups.keys 1970) := by
    have hlate := crash_late hne hdecodes [] 1
    have hyears : compactedYears 1972 = [1970] := rfl
    rw [hcount, List.take_nil] at hlate
    rw [crashed, hyears, compactOps_of_decodes hne hdecodes]
    exact hlate
  have hlength : 1 < (monthsIn backups.keys 1970).length := by
    rw [monthsIn_backups]
    decide
  rw [hcrashed, finishes_merged hdecodes hlength, finishes_nil, monthsIn_backups, recompacted]

theorem compacted_recompacted :
    Compacted plain backups [(1970, months)] (cutAt 1970 1) recompacted := by
  have hne : monthsIn backups.keys 1970 ≠ [] := by
    rw [monthsIn_backups]
    exact List.cons_ne_nil _ _
  rw [← groups_backups]
  refine compacted_cut (List.nodup_singleton _) hne (finishes_nil.2 ?_)
  rw [monthsIn_backups]
  rfl

theorem fileBlocks_january :
    fileBlocks plain readBlock backups "197001M.jsonl.zst" = .ok [january] :=
  fileBlocks_contents (by decide) lookup_january (List.forall_mem_singleton.2 readsBack_january)

theorem fileBlocks_february :
    fileBlocks plain readBlock backups "197002M.jsonl.zst" = .ok [february] :=
  fileBlocks_contents (by decide) lookup_february (List.forall_mem_singleton.2 readsBack_february)

/-- The annual file has the second month only. -/
theorem fileBlocks_recompacted :
    fileBlocks plain readBlock recompacted (annualName 1970) = .ok [february] := by
  have htext : textOf plain backups "197002M.jsonl.zst" = contentsText Block.json [february] := by
    rw [textOf, readBackupText_finish (by decide) lookup_february, String.join_cons,
      String.join_nil, String.append_empty]
  have hlookup := compacted_recompacted.annual _ (List.mem_singleton_self _)
  have hkept : cutAt 1970 1 (1970, months) = ["197002M.jsonl.zst"] := rfl
  rw [hkept, List.map_singleton, htext] at hlookup
  exact fileBlocks_contents isZst_annualName hlookup
    (List.forall_mem_singleton.2 readsBack_february)

/-- After the crash and the second run the block of January is lost. -/
theorem january_lost : ∃ before after final created,
    readBackupBlocks plain readBlock backups = .ok before ∧
      compactOldBackups plain (crashed plain backups 1972 6) 1972 = (final, .ok created) ∧
        readBackupBlocks plain readBlock final = .ok after ∧
          january ∈ before ∧ january ∉ after := by
  have hfinishes : Finishes plain (crashed plain backups 1972 6) (compactedYears 1972)
      recompacted := finishes_recompacted
  obtain ⟨created, hcreated⟩ := compactOldBackups_iff.2 hfinishes
  have hannual : ∀ name ∈ recompacted, isBackupName name → name = annualName 1970 := by
    intro name hmem hbackup
    rcases (compacted_recompacted.mem_iff hbackup).1 hmem with ⟨g, hg, rfl⟩ | ⟨hmem', hstays⟩
    · rw [List.mem_singleton.1 hg]
    · exact absurd (mem_backups.1 hmem') (hstays _ (List.mem_singleton_self _)).2
  obtain ⟨before, hbefore⟩ : ∃ before, readBackupBlocks plain readBlock backups = .ok before := by
    refine exists_readBackupBlocks.2 fun name hmem _ => ?_
    rcases List.mem_pair.1 (mem_backups.1 hmem) with rfl | rfl
    · exact ⟨_, fileBlocks_january⟩
    · exact ⟨_, fileBlocks_february⟩
  obtain ⟨after, hafter⟩ : ∃ after, readBackupBlocks plain readBlock recompacted = .ok after := by
    refine exists_readBackupBlocks.2 fun name hmem hbackup => ?_
    rw [hannual name hmem hbackup]
    exact ⟨_, fileBlocks_recompacted⟩
  refine ⟨before, after, recompacted, created, hbefore, hcreated, hafter, ?_, fun hin => ?_⟩
  · exact (mem_readBackupBlocks hbefore).2 ⟨_, mem_backups.2 List.mem_cons_self, by decide, _,
      fileBlocks_january, List.mem_cons_self⟩
  · obtain ⟨name, hmem, hbackup, bs, hbs, hb⟩ := (mem_readBackupBlocks hafter).1 hin
    rw [hannual name hmem hbackup, fileBlocks_recompacted] at hbs
    obtain rfl := Except.ok.inj hbs
    exact absurd hb (by decide)

end TwoMonths

end IeumChain
