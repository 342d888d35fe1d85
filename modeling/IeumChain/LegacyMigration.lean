import IeumChain.EmbeddedDb

/-!
# The migration of the first database

The first open of a directory with a JSON image creates the SQLite file, and several steps later
writes the values of the image into it. A crash in between leaves a file without the values, and
no later open looks at the image again.
-/
namespace IeumChain

open ByteCodec Text Outcome MachineWords FiniteMap

namespace Sqlite

/-- What a lookup finds, whether there is a table or not. -/
def values (s : Sqlite) : HashMap String Bytes := s.kv.getD ∅

/-- If the file has a version, it is the current one. -/
def Current (s : Sqlite) : Prop :=
  ∀ m, s.metadata = some m → ∀ version, m.lookup "schema_version" = some version → version = 2

/-- The last change of each key counts. -/
theorem lookup_applyPending (kv : HashMap String Bytes) (pending : HashMap String (Option Bytes))
    (key : String) :
    (applyPending kv pending).lookup key = (pending.lookup key).getD (kv.lookup key) := by
  obtain ⟨entries, hnodup⟩ := pending
  unfold applyPending
  dsimp only [AList.lookup]
  induction entries generalizing kv with
  | nil => rfl
  | cons e rest ih =>
      obtain ⟨name, value⟩ := e
      rw [List.nodupKeys_cons] at hnodup
      rw [List.foldl_cons, ih _ hnodup.2]
      by_cases hkey : key = name
      · subst hkey
        rw [List.dlookup_cons_eq, List.dlookup_eq_none.2 hnodup.1]
        cases value with
        | none => exact AList.lookup_erase key kv
        | some value => exact AList.lookup_insert kv
      · rw [List.dlookup_cons_ne _ _ hkey]
        congr 1
        cases value with
        | none => exact AList.lookup_erase_ne hkey
        | some value => exact AList.lookup_insert_ne hkey

theorem values_schemaSteps {s s' : Sqlite} (h : s' ∈ s.schemaSteps) : s'.values = s.values := by
  simp only [schemaSteps, List.mem_cons, List.not_mem_nil, or_false] at h
  rcases h with rfl | rfl | rfl | rfl <;> rfl

theorem initialized_mem (s : Sqlite) : s.initialized ∈ s.schemaSteps := by
  simp only [schemaSteps, initialized, List.mem_cons, true_or, or_true]

theorem lookup_insertDefaults {m : HashMap String ℕ}
    (h : ∀ version, m.lookup "schema_version" = some version → version = 2) :
    (insertOrIgnore (insertOrIgnore m "schema_version" 2) "generation" 0).lookup
      "schema_version" = some 2 := by
  have hfirst : (insertOrIgnore m "schema_version" 2).lookup "schema_version" = some 2 := by
    unfold insertOrIgnore
    split_ifs with hmem
    · obtain ⟨version, hversion⟩ := Option.isSome_iff_exists.1 (AList.lookup_isSome.2 hmem)
      rw [hversion, h version hversion]
    · exact AList.lookup_insert m
  generalize insertOrIgnore m "schema_version" 2 = m' at hfirst
  unfold insertOrIgnore
  split_ifs
  · exact hfirst
  · rw [AList.lookup_insert_ne (by decide), hfirst]

theorem Current.createMetadata {s : Sqlite} (h : s.Current) {m : HashMap String ℕ}
    (hm : s.createMetadata.metadata = some m) :
    ∀ version, m.lookup "schema_version" = some version → version = 2 := by
  intro version hversion
  cases hs : s.metadata with
  | none =>
      simp only [Sqlite.createMetadata, hs, Option.getD_none, Option.some.injEq] at hm
      rw [← hm] at hversion
      cases hversion
  | some m' =>
      simp only [Sqlite.createMetadata, hs, Option.getD_some, Option.some.injEq] at hm
      exact h m' hs version (hm ▸ hversion)

theorem Current.initialized {s : Sqlite} (h : s.Current) :
    s.initialized.readMetadata "schema_version" = .ok 2 := by
  have hm := h.createMetadata rfl
  have hlookup := lookup_insertDefaults hm
  simp only [readMetadata, Sqlite.initialized, insertDefaults, createKv, Sqlite.createMetadata,
    Option.map_some] at hlookup ⊢
  rw [hlookup]
  rfl

theorem Current.schemaSteps {s s' : Sqlite} (h : s.Current) (hs' : s' ∈ s.schemaSteps) :
    s'.Current := by
  have hfirst : s.createMetadata.Current := fun m hm => h.createMetadata hm
  simp only [Sqlite.schemaSteps, List.mem_cons, List.not_mem_nil, or_false] at hs'
  rcases hs' with rfl | rfl | rfl | rfl
  · exact h
  · exact hfirst
  · exact hfirst
  · intro m hm version hversion
    have hread := h.initialized
    rw [readMetadata, Sqlite.initialized, hm] at hread
    dsimp only at hread
    rw [hversion] at hread
    exact Except.ok.inj hread

theorem Current.checkSchema {s : Sqlite} (h : s.Current) : s.initialized.checkSchema = .ok () := by
  rw [Sqlite.checkSchema, h.initialized]
  rfl

theorem current_empty : empty.Current := by
  intro m hm
  cases hm

/-- A transaction keeps the version of the tables. -/
theorem commitWithGeneration_eq_ok {s s' : Sqlite} {pending : HashMap String (Option Bytes)}
    {generation : ℕ} (h : s.commitWithGeneration pending generation = .ok s') :
    (s.Current → s'.Current) ∧
      (∀ key, s'.values.lookup key = (pending.lookup key).getD (s.values.lookup key)) ∧
      ∀ key, s'.get key = .ok (s'.values.lookup key) := by
  unfold Sqlite.commitWithGeneration at h
  cases hkv : s.kv with
  | none => simp only [hkv, reduceCtorEq] at h
  | some kv =>
      cases hm : s.metadata with
      | none => simp only [hkv, hm, reduceCtorEq] at h
      | some m =>
          simp only [hkv, hm, Except.ok.injEq] at h
          subst h
          refine ⟨?_, ?_, fun _ => rfl⟩
          · intro hcurrent m' hm' version hversion
            rw [← Option.some.inj hm'] at hversion
            split_ifs at hversion
            · rw [AList.lookup_insert_ne (by decide)] at hversion
              exact hcurrent m hm version hversion
            · exact hcurrent m hm version hversion
          · intro key
            simp only [values, hkv, Option.getD_some]
            exact lookup_applyPending kv pending key

theorem exists_commitWithGeneration (s : Sqlite) (pending : HashMap String (Option Bytes))
    (generation : ℕ) : ∃ s', s.initialized.commitWithGeneration pending generation = .ok s' :=
  ⟨_, rfl⟩

end Sqlite

/-- Putting the values of an image. -/
theorem EmbeddedDb.foldl_put (values : HashMap String Bytes) (db : EmbeddedDb) :
    (values.entries.foldl (fun db e => db.put e.1 e.2) db).sqlite = db.sqlite ∧
      ∀ key, (values.entries.foldl (fun db e => db.put e.1 e.2) db).pending.lookup key =
        ((values.lookup key).map some).or (db.pending.lookup key) := by
  obtain ⟨entries, hnodup⟩ := values
  dsimp only [AList.lookup]
  induction entries generalizing db with
  | nil => exact ⟨rfl, fun _ => rfl⟩
  | cons e rest ih =>
      obtain ⟨name, value⟩ := e
      rw [List.nodupKeys_cons] at hnodup
      obtain ⟨hsqlite, hpending⟩ := ih (db.put name value) hnodup.2
      rw [List.foldl_cons]
      refine ⟨hsqlite, fun key => (hpending key).trans ?_⟩
      by_cases hkey : key = name
      · subst hkey
        rw [List.dlookup_cons_eq, List.dlookup_eq_none.2 hnodup.1]
        exact AList.lookup_insert _
      · rw [List.dlookup_cons_ne _ _ hkey]
        congr 1
        exact AList.lookup_insert_ne hkey

/-- A commit that returns is a transaction of the pending changes. -/
theorem EmbeddedDb.commit_eq_ok {db db' : EmbeddedDb} {generation : ℕ}
    (h : db.commit = (db', .ok generation)) :
    db.sqlite.commitWithGeneration db.pending generation = .ok db'.sqlite := by
  unfold EmbeddedDb.commit at h
  cases hread : db.sqlite.readMetadata "generation" with
  | error e =>
      rw [hread] at h
      cases (Prod.mk.inj h).2
  | ok old =>
      rw [hread] at h
      simp only [EmbeddedDb.commitWithGeneration] at h
      cases hcommit : db.sqlite.commitWithGeneration db.pending (saturatingAdd u64Max old 1) with
      | error e =>
          rw [hcommit] at h
          cases (Prod.mk.inj h).2
      | ok sqlite =>
          rw [hcommit] at h
          obtain ⟨hdb, hgeneration⟩ := Prod.mk.inj h
          cases hgeneration
          rw [← hdb, hcommit]

namespace DbDirectory

section
variable {decode : Bytes → Except String LegacyDatabaseImage} {bytes : Bytes}
  {image : LegacyDatabaseImage}

/-- The values of the image replace what is there. -/
theorem exists_importLegacy (hdecode : decode bytes = .ok image) (hversion : image.schemaVersion = 1)
    (s : Sqlite) :
    ∃ s', importLegacy decode s.initialized bytes = .ok s' ∧ (s.initialized.Current → s'.Current) ∧
      (∀ key, s'.values.lookup key = (image.values.lookup key).or (s.values.lookup key)) ∧
      ∀ key, s'.get key = .ok (s'.values.lookup key) := by
  obtain ⟨hsqlite, hpending⟩ :=
    EmbeddedDb.foldl_put image.values { sqlite := s.initialized, pending := ∅ }
  generalize hmigrated : image.values.entries.foldl (fun db e => db.put e.1 e.2)
    ({ sqlite := s.initialized, pending := ∅ } : EmbeddedDb) = migrated at hsqlite hpending
  obtain ⟨s', hs'⟩ := s.exists_commitWithGeneration migrated.pending image.generation
  obtain ⟨hcurrent, hvalues, hget⟩ := Sqlite.commitWithGeneration_eq_ok hs'
  have hcommit : migrated.commitWithGeneration image.generation =
      ({ sqlite := s', pending := ∅ }, .ok ()) := by
    rw [EmbeddedDb.commitWithGeneration, hsqlite, hs']
  refine ⟨s', ?_, hcurrent, fun key => ?_, hget⟩
  · rw [importLegacy, bind_eq_ok]
    refine ⟨image, by rw [hdecode]; rfl, ?_⟩
    rw [check_bind_eq_ok]
    refine ⟨reject_eq_ok.2 fun h => h hversion, ?_⟩
    simp only [hmigrated, hcommit]
    rfl
  · rw [hvalues, hpending, Sqlite.values_schemaSteps s.initialized_mem]
    cases image.values.lookup key <;> rfl

/-! ## Cut opens -/

variable (decode) in
/-- A cut open ends in the directory it found or after one of the steps. -/
theorem openCut_mem (d : DbDirectory) (steps : ℕ) :
    d.openCut decode steps = d ∨ d.openCut decode steps ∈ (d.openSteps decode).1 := by
  rcases List.mem_cons.1 (List.getLastD_mem_cons
    (l := (d.openSteps decode).1.take steps) (a := d)) with heq | hmem
  · exact .inl heq
  · exact .inr (List.mem_of_mem_take hmem)

/-- With a file the schema is all there is to do. -/
theorem openSteps_of_some {d : DbDirectory} {s : Sqlite} (hs : d.sqlite = some s)
    (hcurrent : s.Current) :
    d.openSteps decode = (s.schemaSteps.map fun s => { d with sqlite := some s }, .ok ()) := by
  simp only [openSteps, hs, Option.getD_some, hcurrent.checkSchema]

variable (decode) in
theorem openCut_of_some {d : DbDirectory} {s : Sqlite} (hs : d.sqlite = some s)
    (hcurrent : s.Current) (steps : ℕ) :
    ∃ s', (d.openCut decode steps).sqlite = some s' ∧ s'.Current ∧ s'.values = s.values := by
  rcases d.openCut_mem decode steps with heq | hmem
  · rw [heq]
    exact ⟨s, hs, hcurrent, rfl⟩
  · rw [openSteps_of_some hs hcurrent, List.mem_map] at hmem
    obtain ⟨s', hs', heq⟩ := hmem
    rw [← heq]
    exact ⟨s', rfl, hcurrent.schemaSteps hs', Sqlite.values_schemaSteps hs'⟩

variable (decode) in
theorem openAll_of_some {d : DbDirectory} {s : Sqlite} (hs : d.sqlite = some s)
    (hcurrent : s.Current) :
    ∃ d' db, d.openAll decode = (d', .ok db) ∧ ∀ key, db.get key = .ok (s.values.lookup key) := by
  simp only [openAll, openSteps_of_some hs hcurrent]
  refine ⟨_, _, rfl, fun key => ?_⟩
  rfl

/-- A directory of the first versions: an image and no SQLite file. -/
def old (bytes : Bytes) : DbDirectory := { sqlite := none, legacy := some bytes, backup := none }

/-- The first open of an old directory: four steps for the file and its schema, the values, and
the new name of the image. -/
theorem openSteps_old (hdecode : decode bytes = .ok image) (hversion : image.schemaVersion = 1) :
    ∃ s, s.Current ∧ (∀ key, s.values.lookup key = image.values.lookup key) ∧
      (∀ key, s.get key = .ok (s.values.lookup key)) ∧ (old bytes).openSteps decode =
        ((Sqlite.empty.schemaSteps.map fun s => { old bytes with sqlite := some s }) ++
          [{ old bytes with sqlite := some s },
            { sqlite := some s, legacy := none, backup := some bytes }], .ok ()) := by
  obtain ⟨s, himport, hcurrent, hvalues, hget⟩ :=
    exists_importLegacy hdecode hversion Sqlite.empty
  refine ⟨s, hcurrent (Sqlite.current_empty.schemaSteps Sqlite.empty.initialized_mem), ?_, hget, ?_⟩
  · intro key
    rw [hvalues]
    cases image.values.lookup key <;> rfl
  · simp only [openSteps, old, Option.getD_none, Sqlite.current_empty.checkSchema, himport]

end

end DbDirectory

/-! ## Runs of crashes and commits -/

/-- A directory, and the keys that have been written or removed since the start. -/
structure Migration where
  directory : DbDirectory
  overwritten : List String

namespace Migration

/-- An open that a crash cuts off after some steps (or that ends, if there are enough), and a
commit of a process that has opened the database. -/
inductive Event
  | openCut (steps : ℕ)
  | commit (pending : HashMap String (Option Bytes))

variable (decode : Bytes → Except String LegacyDatabaseImage)

def step (m : Migration) : Event → Migration
  | .openCut steps => { m with directory := m.directory.openCut decode steps }
  | .commit pending =>
      match m.directory.sqlite with
      | none => m
      | some sqlite =>
          match ({ sqlite, pending } : EmbeddedDb).commit with
          | (_, .error _) => m
          | (db, .ok _) =>
              { directory := { m.directory with sqlite := some db.sqlite }
                overwritten := m.overwritten ++ pending.keys }

def run (m : Migration) (events : List Event) : Migration := events.foldl (step decode) m

def start (bytes : Bytes) : Migration := ⟨.old bytes, []⟩

/-- The next open returns a database with every value of the image that was not overwritten. -/
def Kept (image : LegacyDatabaseImage) (m : Migration) : Prop :=
  ∃ d db, m.directory.openAll decode = (d, .ok db) ∧ ∀ key value,
    image.values.lookup key = some value → key ∉ m.overwritten → db.get key = .ok (some value)

/-- No open that creates the SQLite file is cut off before the values are in it. -/
def ImportsWhole : Migration → List Event → Prop
  | _, [] => True
  | m, .openCut steps :: rest =>
      (m.directory.sqlite = none → steps = 0 ∨ 5 ≤ steps) ∧
        ImportsWhole (m.step decode (.openCut steps)) rest
  | m, .commit pending :: rest => ImportsWhole (m.step decode (.commit pending)) rest

variable {decode} {m : Migration} {image : LegacyDatabaseImage}

/-- The file exists; its values are those of the image or missing, except where overwritten. -/
def Opened (image : LegacyDatabaseImage) (found : Bool) (m : Migration) : Prop :=
  ∃ s, m.directory.sqlite = some s ∧ s.Current ∧ ∀ key, key ∈ image.values →
    key ∉ m.overwritten →
      s.values.lookup key = if found then image.values.lookup key else none

variable (decode) in
theorem Opened.step {found : Bool} (h : m.Opened image found) (e : Event) :
    (m.step decode e).Opened image found := by
  obtain ⟨s, hs, hcurrent, hvalues⟩ := h
  cases e with
  | openCut steps =>
      obtain ⟨s', hs', hcurrent', hsame⟩ :=
        DbDirectory.openCut_of_some decode hs hcurrent steps
      refine ⟨s', hs', hcurrent', fun key hkey hnot => ?_⟩
      rw [hsame]
      exact hvalues key hkey hnot
  | commit pending =>
      simp only [Migration.step, hs]
      cases hcommit : ({ sqlite := s, pending } : EmbeddedDb).commit with
      | mk db result =>
          cases result with
          | error e => exact ⟨s, hs, hcurrent, hvalues⟩
          | ok generation =>
              obtain ⟨hstays, hlookup, -⟩ :=
                Sqlite.commitWithGeneration_eq_ok (EmbeddedDb.commit_eq_ok hcommit)
              refine ⟨db.sqlite, rfl, hstays hcurrent, fun key hkey hnot => ?_⟩
              rw [List.mem_append, not_or] at hnot
              have hnone : pending.lookup key = none :=
                AList.lookup_eq_none.2 fun hmem => hnot.2 (AList.mem_keys.1 hmem)
              rw [hlookup, hnone, Option.getD_none]
              exact hvalues key hkey hnot.1

theorem Opened.run {found : Bool} (h : m.Opened image found) (events : List Event) :
    (m.run decode events).Opened image found := by
  induction events generalizing m with
  | nil => exact h
  | cons e rest ih => exact ih (h.step decode e)

theorem Opened.kept_iff {found : Bool} (h : m.Opened image found) :
    m.Kept decode image ↔ found = true ∨ ∀ key ∈ image.values, key ∈ m.overwritten := by
  obtain ⟨s, hs, hcurrent, hvalues⟩ := h
  obtain ⟨d, db, hopen, hget⟩ := DbDirectory.openAll_of_some decode hs hcurrent
  constructor
  · rintro ⟨d', db', hopen', hkept⟩
    cases hopen.symm.trans hopen'
    by_contra hnot
    push Not at hnot
    obtain ⟨hlost, key, hkey, hkeep⟩ := hnot
    obtain ⟨value, hvalue⟩ := Option.isSome_iff_exists.1 (AList.lookup_isSome.2 hkey)
    have hfound := hkept key value hvalue hkeep
    rw [hget, hvalues key hkey hkeep, if_neg hlost] at hfound
    cases hfound
  · intro h
    refine ⟨d, db, hopen, fun key value hvalue hkeep => ?_⟩
    have hkey : key ∈ image.values := AList.lookup_isSome.1 (by rw [hvalue]; rfl)
    rcases h with hfound | hall
    · rw [hget, hvalues key hkey hkeep, if_pos hfound, hvalue]
    · exact absurd (hall key hkey) hkeep

theorem Opened.importsWhole {found : Bool} (h : m.Opened image found) (events : List Event) :
    m.ImportsWhole decode events := by
  induction events generalizing m with
  | nil => trivial
  | cons e rest ih =>
      cases e with
      | openCut steps =>
          have hnext := ih (h.step decode (.openCut steps))
          obtain ⟨s, hs, -⟩ := h
          exact ⟨fun hnone => (nomatch hs.symm.trans hnone), hnext⟩
      | commit pending => exact ih (h.step decode _)

variable {bytes : Bytes}

/-- The first open of an old directory. -/
theorem start_openCut (hdecode : decode bytes = .ok image) (hversion : image.schemaVersion = 1)
    {steps : ℕ} (hsteps : steps ≠ 0) :
    ((start bytes).step decode (.openCut steps)).Opened image (decide (5 ≤ steps)) := by
  obtain ⟨s, hcurrent, hvalues, -, hall⟩ := DbDirectory.openSteps_old hdecode hversion
  have hmissing : ∀ s' ∈ Sqlite.empty.schemaSteps,
      Opened image false ⟨{ DbDirectory.old bytes with sqlite := some s' }, []⟩ := by
    intro s' hs'
    refine ⟨s', rfl, Sqlite.current_empty.schemaSteps hs', fun key _ _ => ?_⟩
    rw [Sqlite.values_schemaSteps hs']
    rfl
  simp only [Migration.step, start, DbDirectory.openCut, hall]
  rcases (by omega : steps = 1 ∨ steps = 2 ∨ steps = 3 ∨ steps = 4 ∨ steps = 5 ∨ 6 ≤ steps) with
    rfl | rfl | rfl | rfl | rfl | hlong
  · exact hmissing _ (by simp [Sqlite.schemaSteps])
  · exact hmissing _ (by simp [Sqlite.schemaSteps])
  · exact hmissing _ (by simp [Sqlite.schemaSteps])
  · exact hmissing _ (by simp [Sqlite.schemaSteps])
  · exact ⟨s, rfl, hcurrent, fun key _ _ => hvalues key⟩
  · have hfive : 5 ≤ steps := by omega
    rw [List.take_of_length_le (by simpa [Sqlite.schemaSteps] using hlong), decide_eq_true hfive]
    exact ⟨s, rfl, hcurrent, fun key _ _ => hvalues key⟩

theorem kept_start (hdecode : decode bytes = .ok image) (hversion : image.schemaVersion = 1) :
    (start bytes).Kept decode image := by
  obtain ⟨s, -, hvalues, hget, hall⟩ := DbDirectory.openSteps_old hdecode hversion
  refine ⟨_, _, by simp only [start, DbDirectory.openAll, hall]; rfl, fun key value hvalue _ => ?_⟩
  exact (hget key).trans (by rw [hvalues, hvalue])

/-- After every run of crashes and commits, the values of the image are kept exactly if the
open that created the SQLite file was not cut off before it had read the image in, or nothing is
left to keep. -/
theorem migration_kept_iff (hdecode : decode bytes = .ok image)
    (hversion : image.schemaVersion = 1) (events : List Event) :
    ((start bytes).run decode events).Kept decode image ↔
      (start bytes).ImportsWhole decode events ∨
        ∀ key ∈ image.values, key ∈ ((start bytes).run decode events).overwritten := by
  induction events with
  | nil => exact iff_of_true (kept_start hdecode hversion) (.inl trivial)
  | cons e rest ih =>
      cases e with
      | openCut steps =>
          by_cases hzero : steps = 0
          · subst hzero
            have hsame : (start bytes).step decode (.openCut 0) = start bytes := rfl
            simp only [run, List.foldl_cons, hsame, ImportsWhole, true_or, implies_true, true_and]
            exact ih
          · have hopened := start_openCut hdecode hversion hzero
            have hnone : (start bytes).directory.sqlite = none := rfl
            simp only [ImportsWhole, hnone, hzero, false_or, true_imp_iff,
              hopened.importsWhole rest, and_true]
            exact ((hopened.run rest).kept_iff).trans (by rw [decide_eq_true_eq]; rfl)
      | commit pending =>
          have hsame : (start bytes).step decode (.commit pending) = start bytes := rfl
          simp only [run, List.foldl_cons, hsame, ImportsWhole]
          exact ih

/-! An image with one value, in the JSON text that the first versions wrote. -/

def stateImage : LegacyDatabaseImage :=
  { schemaVersion := 1, generation := 7
    values := AList.singleton "canonical/current" [108, 101, 103, 97, 99, 121] }

def stateText : Bytes :=
  utf8 "\x7b\"schema_version\":1,\"generation\":7,\"values\":\x7b\"canonical/current\":[108,101,103,97,99,121]\x7d\x7d"

/-- The deserializer, on this text. -/
def decodeState (bytes : Bytes) : Except String LegacyDatabaseImage :=
  if bytes = stateText then .ok stateImage else .error "expected value at line 1 column 1"

theorem decodeState_stateText : decodeState stateText = .ok stateImage := if_pos rfl

/-- The process stops when the file has been created, and the values never come back. -/
theorem values_lost : decodeState stateText = .ok stateImage ∧
    ¬((start stateText).run decodeState [.openCut 1]).Kept decodeState stateImage := by
  refine ⟨decodeState_stateText, ?_⟩
  have hopened := start_openCut decodeState_stateText rfl Nat.one_ne_zero
  intro hkept
  rcases hopened.kept_iff.1 hkept with hfound | hall
  · cases hfound
  · have hover := hall "canonical/current" (AList.lookup_isSome.1 rfl)
    exact absurd hover List.not_mem_nil

/-- A crash before the image gets its new name, and a commit of another key. -/
theorem migration_kept_iff_renamed :
    ((start stateText).run decodeState
      [.openCut 5, .commit (AList.singleton "state/height" (some [49]))]).Kept decodeState
        stateImage :=
  (migration_kept_iff decodeState_stateText rfl _).2
    (.inl ⟨fun _ => .inr le_rfl, trivial⟩)

end Migration

end IeumChain
