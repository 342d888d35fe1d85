import IeumChain.LegacyMigration

/-!
# Transactions of the embedded database

A handle reads through its own pending changes, and a commit writes them and the next generation
in one transaction. Each call to SQLite may be answered with an error; what a transaction did
before counts only if its commit is answered. The generation is a `u64` in an integer column.
-/
namespace IeumChain

open ByteCodec Text Outcome MachineWords FiniteMap

/-- A map with changes that wait; a change without a value is a removal. -/
@[ext] structure BufferedMap (κ ν : Type) where
  durable : κ → Option ν
  overlay : κ → Option (Option ν)
  generation : ℕ

namespace BufferedMap

variable {κ ν : Type} [DecidableEq κ]

def get (m : BufferedMap κ ν) (key : κ) : Option ν := (m.overlay key).getD (m.durable key)

def put (m : BufferedMap κ ν) (key : κ) (value : ν) : BufferedMap κ ν :=
  { m with overlay := Function.update m.overlay key (some (some value)) }

def remove (m : BufferedMap κ ν) (key : κ) : BufferedMap κ ν :=
  { m with overlay := Function.update m.overlay key (some none) }

def commit (m : BufferedMap κ ν) : BufferedMap κ ν :=
  { durable := m.get, overlay := fun _ => none, generation := m.generation + 1 }

def reopen (m : BufferedMap κ ν) : BufferedMap κ ν := { m with overlay := fun _ => none }

end BufferedMap

/-! ## Calls -/

/-- The calls to SQLite. -/
inductive DbCall
  | openConnection
  | readMetadata
  | begin
  | prepareUpsert
  | prepareDelete
  | prepareSelect
  | bindText (key : String)
  | bindBlob (key : String)
  | step (key : String)
  | reset (key : String)
  | updateGeneration
  | commit
  deriving DecidableEq

/-- The calls that SQLite answers with an error. -/
abbrev Faults := DbCall → Option String

def answer (faults : Faults) (call : DbCall) : Except String Unit :=
  match faults call with
  | none => .ok ()
  | some e => .error e

/-- The longest text or blob that SQLite takes. -/
def sqliteMaxLength : ℕ := 1000000000

/-- Lengths are given in 32 bits. -/
def bindText (value : String) : Except String Unit := do
  reject (i32Max < value.utf8ByteSize) "SQLite key가 너무 큽니다."
  reject (sqliteMaxLength < value.utf8ByteSize) "string or blob too big"

def bindBlob (value : Bytes) : Except String Unit := do
  reject (i32Max < value.length) "SQLite value가 너무 큽니다."
  reject (sqliteMaxLength < value.length) "string or blob too big"

theorem answer_eq_ok {faults : Faults} {call : DbCall} :
    answer faults call = .ok () ↔ faults call = none := by
  unfold answer
  cases faults call <;> simp

theorem bindText_eq_ok {value : String} :
    bindText value = .ok () ↔ value.utf8ByteSize ≤ sqliteMaxLength := by
  rw [bindText, check_bind_eq_ok, reject_eq_ok, reject_eq_ok, i32Max, sqliteMaxLength]
  omega

theorem bindBlob_eq_ok {value : Bytes} :
    bindBlob value = .ok () ↔ value.length ≤ sqliteMaxLength := by
  rw [bindBlob, check_bind_eq_ok, reject_eq_ok, reject_eq_ok, i32Max, sqliteMaxLength]
  omega

namespace Sqlite

/-- One pending change: an upsert or a deletion. -/
def writeChange (faults : Faults) (kv : HashMap String Bytes) (e : (_ : String) × Option Bytes) :
    Except String (HashMap String Bytes) :=
  match e.2 with
  | some value => do
      bindText e.1
      answer faults (.bindText e.1)
      bindBlob value
      answer faults (.bindBlob e.1)
      answer faults (.step e.1)
      answer faults (.reset e.1)
      pure (kv.insert e.1 value)
  | none => do
      bindText e.1
      answer faults (.bindText e.1)
      answer faults (.step e.1)
      answer faults (.reset e.1)
      pure (kv.erase e.1)

/-- What a transaction would make of the file. -/
def transaction (faults : Faults) (s : Sqlite) (pending : HashMap String (Option Bytes))
    (generation : ℕ) : Except String Sqlite := do
  let kv ← okOr s.kv "no such table: kv"
  answer faults .prepareUpsert
  answer faults .prepareDelete
  let kv ← pending.entries.foldlM (writeChange faults) kv
  let m ← okOr s.metadata "no such table: metadata"
  answer faults .updateGeneration
  pure { kv := some kv
         metadata := some (if "generation" ∈ m
           then m.insert "generation" (storedInteger generation) else m) }

end Sqlite

namespace EmbeddedDb

/-- The file after a transaction. A rollback, or the end of the connection, leaves it as it was. -/
def written (faults : Faults) (db : EmbeddedDb) (generation : ℕ) : Except String Sqlite := do
  answer faults .openConnection
  answer faults .begin
  let sqlite ← db.sqlite.transaction faults db.pending generation
  answer faults .commit
  pure sqlite

/-- `commit_with_generation` with the answers of SQLite. -/
def commitGenerationAnswered (faults : Faults) (db : EmbeddedDb) (generation : ℕ) :
    EmbeddedDb × Except String Unit :=
  match db.written faults generation with
  | .error e => (db, .error e)
  | .ok sqlite => ({ sqlite, pending := ∅ }, .ok ())

def generationAnswered (faults : Faults) (db : EmbeddedDb) : Except String ℕ := do
  answer faults .readMetadata
  db.sqlite.readMetadata "generation"

/-- `commit` with the answers of SQLite. -/
def commitAnswered (faults : Faults) (db : EmbeddedDb) : EmbeddedDb × Except String ℕ :=
  match db.generationAnswered faults with
  | .error e => (db, .error e)
  | .ok generation =>
      let next := saturatingAdd u64Max generation 1
      let (db, result) := db.commitGenerationAnswered faults next
      (db, result.map fun _ => next)

def selectAnswered (faults : Faults) (s : Sqlite) (key : String) :
    Except String (Option Bytes) := do
  answer faults .openConnection
  answer faults .prepareSelect
  bindText key
  answer faults (.bindText key)
  answer faults (.step key)
  s.get key

/-- `get` with the answers of SQLite. -/
def getAnswered (faults : Faults) (db : EmbeddedDb) (key : String) :
    Except String (Option Bytes) :=
  match db.pending.lookup key with
  | some value => .ok value
  | none => selectAnswered faults db.sqlite key

/-- The handle as a map. -/
def view (db : EmbeddedDb) : BufferedMap String Bytes where
  durable key := db.sqlite.values.lookup key
  overlay key := db.pending.lookup key
  generation := ((db.sqlite.metadata.getD ∅).lookup "generation").getD 0

end EmbeddedDb

/-! ## What a transaction needs -/

/-- The calls for one change, after which its row is written. -/
def changeCalls (e : (_ : String) × Option Bytes) : List DbCall :=
  match e.2 with
  | some _ => [.bindText e.1, .bindBlob e.1, .step e.1, .reset e.1]
  | none => [.bindText e.1, .step e.1, .reset e.1]

def readCalls (key : String) : List DbCall :=
  [.openConnection, .prepareSelect, .bindText key, .step key]

def Sized (e : (_ : String) × Option Bytes) : Prop :=
  e.1.utf8ByteSize ≤ sqliteMaxLength ∧ ∀ value ∈ e.2, value.length ≤ sqliteMaxLength

def EmbeddedDb.commitCalls (db : EmbeddedDb) : List DbCall :=
  [.readMetadata, .openConnection, .begin, .prepareUpsert, .prepareDelete, .updateGeneration,
    .commit] ++ db.pending.entries.flatMap changeCalls

/-- Nothing stops the commit: the changes are of a size that SQLite takes, and no call is answered
with an error. -/
structure Unhindered (faults : Faults) (db : EmbeddedDb) : Prop where
  sized : ∀ e ∈ db.pending.entries, Sized e
  calls : ∀ call ∈ db.commitCalls, faults call = none

/-- The tables as an open leaves them. -/
def Sqlite.Ready (s : Sqlite) : Prop :=
  ∃ m kv generation, s = { metadata := some m, kv := some kv } ∧
    m.lookup "schema_version" = some 2 ∧ m.lookup "generation" = some generation

namespace Sqlite

variable {faults : Faults} {kv kv' : HashMap String Bytes} {e : (_ : String) × Option Bytes}
  {s s' : Sqlite} {pending : HashMap String (Option Bytes)} {generation : ℕ}

def applyChange (kv : HashMap String Bytes) (e : (_ : String) × Option Bytes) :
    HashMap String Bytes :=
  match e.2 with
  | some value => kv.insert e.1 value
  | none => kv.erase e.1

theorem writeChange_eq_ok : writeChange faults kv e = .ok kv' ↔
    (Sized e ∧ ∀ call ∈ changeCalls e, faults call = none) ∧ kv' = applyChange kv e := by
  obtain ⟨key, value⟩ := e
  cases value with
  | none =>
      simp only [writeChange, check_bind_eq_ok, answer_eq_ok, bindText_eq_ok, pure_eq_ok, Sized,
        changeCalls, applyChange, List.forall_mem_cons, Option.mem_def, reduceCtorEq]
      tauto
  | some value =>
      simp only [writeChange, check_bind_eq_ok, answer_eq_ok, bindText_eq_ok, bindBlob_eq_ok,
        pure_eq_ok, Sized, changeCalls, applyChange, List.forall_mem_cons, Option.mem_def,
        Option.some.injEq, forall_eq']
      tauto

theorem transaction_eq_ok (hready : Ready s) :
    transaction faults s pending generation = .ok s' ↔
      (faults .prepareUpsert = none ∧ faults .prepareDelete = none ∧
        faults .updateGeneration = none ∧
        ∀ e ∈ pending.entries, Sized e ∧ ∀ call ∈ changeCalls e, faults call = none) ∧
      s.commitWithGeneration pending generation = .ok s' := by
  obtain ⟨m, kv, -, rfl, -⟩ := hready
  have hloop : ∀ kv', pending.entries.foldlM (writeChange faults) kv = .ok kv' ↔
      (∀ e ∈ pending.entries, Sized e ∧ ∀ call ∈ changeCalls e, faults call = none) ∧
        kv' = applyPending kv pending := fun _ => foldlM_checked fun _ _ _ => writeChange_eq_ok
  rw [transaction, bind_eq_ok]
  simp only [okOr_eq_ok, Option.some.injEq, exists_eq_left']
  rw [check_bind_eq_ok, check_bind_eq_ok, bind_eq_ok]
  simp only [bind_eq_ok, okOr_eq_ok, Option.some.injEq, exists_eq_left', hloop]
  constructor
  · rintro ⟨hupsert, hdelete, _, ⟨hall, rfl⟩, _, hupdate, hs'⟩
    exact ⟨⟨answer_eq_ok.1 hupsert, answer_eq_ok.1 hdelete, answer_eq_ok.1 hupdate, hall⟩, hs'⟩
  · rintro ⟨⟨hupsert, hdelete, hupdate, hall⟩, hs'⟩
    exact ⟨answer_eq_ok.2 hupsert, answer_eq_ok.2 hdelete, _, ⟨hall, rfl⟩, (),
      answer_eq_ok.2 hupdate, hs'⟩

/-- A transaction keeps the tables. -/
theorem Ready.commitWithGeneration (hready : Ready s)
    (h : s.commitWithGeneration pending generation = .ok s') : Ready s' := by
  obtain ⟨m, kv, g, rfl, hversion, hgeneration⟩ := hready
  have hmem : "generation" ∈ m := AList.lookup_isSome.1 (by rw [hgeneration]; rfl)
  simp only [Sqlite.commitWithGeneration, if_pos hmem, Except.ok.injEq] at h
  refine ⟨_, _, storedInteger generation, h.symm, ?_, AList.lookup_insert m⟩
  rw [AList.lookup_insert_ne (by decide), hversion]

/-- On such a file an open changes nothing. -/
theorem Ready.initialized (hready : Ready s) : s.initialized = s := by
  obtain ⟨m, kv, g, rfl, hversion, hgeneration⟩ := hready
  have hversion' : "schema_version" ∈ m := AList.lookup_isSome.1 (by rw [hversion]; rfl)
  have hgeneration' : "generation" ∈ m := AList.lookup_isSome.1 (by rw [hgeneration]; rfl)
  simp [Sqlite.initialized, createMetadata, createKv, insertDefaults, insertOrIgnore, hversion',
    hgeneration']

theorem ready_of_checkSchema (h : s.initialized.checkSchema = .ok ()) : Ready s.initialized := by
  have hgeneration : ∀ m : HashMap String ℕ,
      ∃ g, (insertOrIgnore m "generation" 0).lookup "generation" = some g := by
    intro m
    unfold insertOrIgnore
    split_ifs with hmem
    · exact Option.isSome_iff_exists.1 (AList.lookup_isSome.2 hmem)
    · exact ⟨0, AList.lookup_insert m⟩
  obtain ⟨g, hg⟩ := hgeneration (insertOrIgnore (s.metadata.getD ∅) "schema_version" 2)
  refine ⟨_, _, g, rfl, ?_, hg⟩
  simp only [checkSchema, readMetadata, Sqlite.initialized, insertDefaults, createKv,
    createMetadata, Option.map_some, bind_eq_ok, okOr_eq_ok, reject_eq_ok, not_not] at h
  obtain ⟨version, hversion, rfl⟩ := h
  exact hversion

end Sqlite

namespace EmbeddedDb

variable {faults : Faults} {db : EmbeddedDb}

theorem unhindered_iff : Unhindered faults db ↔ faults .readMetadata = none ∧
    faults .openConnection = none ∧ faults .begin = none ∧ faults .commit = none ∧
      faults .prepareUpsert = none ∧ faults .prepareDelete = none ∧
        faults .updateGeneration = none ∧ ∀ e ∈ db.pending.entries,
          Sized e ∧ ∀ call ∈ changeCalls e, faults call = none := by
  constructor
  · rintro ⟨hsized, hcalls⟩
    simp only [commitCalls, List.forall_mem_append, List.forall_mem_cons, List.forall_mem_flatMap]
      at hcalls
    obtain ⟨⟨hread, hopen, hbegin, hupsert, hdelete, hupdate, hcommit, -⟩, hchanges⟩ := hcalls
    exact ⟨hread, hopen, hbegin, hcommit, hupsert, hdelete, hupdate,
      fun e he => ⟨hsized e he, hchanges e he⟩⟩
  · rintro ⟨hread, hopen, hbegin, hcommit, hupsert, hdelete, hupdate, hall⟩
    refine ⟨fun e he => (hall e he).1, ?_⟩
    simp only [commitCalls, List.forall_mem_append, List.forall_mem_cons, List.forall_mem_flatMap]
    exact ⟨⟨hread, hopen, hbegin, hupsert, hdelete, hupdate, hcommit, nofun⟩,
      fun e he => (hall e he).2⟩

theorem written_eq_ok (hready : db.sqlite.Ready) {generation : ℕ} {s' : Sqlite} :
    db.written faults generation = .ok s' ↔
      (faults .openConnection = none ∧ faults .begin = none ∧ faults .commit = none ∧
        faults .prepareUpsert = none ∧ faults .prepareDelete = none ∧
          faults .updateGeneration = none ∧ ∀ e ∈ db.pending.entries,
            Sized e ∧ ∀ call ∈ changeCalls e, faults call = none) ∧
      db.sqlite.commitWithGeneration db.pending generation = .ok s' := by
  rw [written, check_bind_eq_ok, check_bind_eq_ok, bind_eq_ok]
  simp only [answer_eq_ok, Sqlite.transaction_eq_ok hready, bind_eq_ok, pure_eq_ok]
  constructor
  · rintro ⟨hopen, hbegin, _, ⟨hcalls, hs'⟩, _, hcommit, rfl⟩
    exact ⟨⟨hopen, hbegin, answer_eq_ok.1 hcommit, hcalls⟩, hs'⟩
  · rintro ⟨⟨hopen, hbegin, hcommit, hcalls⟩, hs'⟩
    exact ⟨hopen, hbegin, s', ⟨hcalls, hs'⟩, (), answer_eq_ok.2 hcommit, rfl⟩

/-- A commit that nothing stops is `commit`; every other one leaves the handle as it is. -/
theorem commitAnswered_cases (faults : Faults) (hready : db.sqlite.Ready) :
    (Unhindered faults db ∧ db.commitAnswered faults = db.commit) ∨
      (¬Unhindered faults db ∧ ∃ e, db.commitAnswered faults = (db, .error e)) := by
  have hread : ∀ g, db.generationAnswered faults = .ok g ↔
      faults .readMetadata = none ∧ db.sqlite.readMetadata "generation" = .ok g := by
    intro g
    rw [generationAnswered, check_bind_eq_ok, answer_eq_ok]
  have hwritten : ∀ g s', db.written faults g = .ok s' ↔ _ ∧ _ := fun _ _ =>
    written_eq_ok hready
  rw [commitAnswered, commit, unhindered_iff]
  cases hanswered : db.generationAnswered faults with
  | error e =>
      refine .inr ⟨fun hcalls => ?_, e, rfl⟩
      obtain ⟨m, kv, g, hs, -, hg⟩ := hready
      have hok : db.generationAnswered faults = .ok g := by
        rw [hread, hs]
        exact ⟨hcalls.1, by simp [Sqlite.readMetadata, hg, okOr]⟩
      cases hanswered.symm.trans hok
  | ok g =>
      obtain ⟨hmetadata, hg⟩ := (hread g).1 hanswered
      rw [hg]
      simp only [commitGenerationAnswered, EmbeddedDb.commitWithGeneration]
      cases hresult : db.written faults (saturatingAdd u64Max g 1) with
      | ok s' =>
          obtain ⟨hcalls, hs'⟩ := (hwritten _ _).1 hresult
          refine .inl ⟨⟨hmetadata, hcalls⟩, ?_⟩
          rw [hs']
      | error e =>
          refine .inr ⟨fun hcalls => ?_, e, rfl⟩
          obtain ⟨s', hs'⟩ : ∃ s', db.sqlite.commitWithGeneration db.pending
              (saturatingAdd u64Max g 1) = .ok s' := by
            obtain ⟨m, kv, -, hs, -⟩ := hready
            rw [hs]
            exact ⟨_, rfl⟩
          cases hresult.symm.trans ((hwritten _ _).2 ⟨hcalls.2, hs'⟩)

/-- What a commit makes of the handle. -/
theorem commit_ready (hready : db.sqlite.Ready) :
    ∃ db', db.commit = (db', .ok (saturatingAdd u64Max db.view.generation 1)) ∧
      db'.sqlite.Ready ∧ db'.view = { db.view.commit with
        generation := Sqlite.storedInteger (saturatingAdd u64Max db.view.generation 1) } := by
  obtain ⟨m, kv, g, hs, hversion, hg⟩ := id hready
  have hmem : "generation" ∈ m := AList.lookup_isSome.1 (by rw [hg]; rfl)
  have hview : db.view.generation = g := by simp [view, hs, hg]
  have hread : db.sqlite.readMetadata "generation" = .ok g := by
    simp [hs, Sqlite.readMetadata, hg, okOr]
  obtain ⟨s', hs'⟩ : ∃ s', db.sqlite.commitWithGeneration db.pending
      (saturatingAdd u64Max g 1) = .ok s' := by
    rw [hs]
    exact ⟨_, rfl⟩
  refine ⟨{ sqlite := s', pending := ∅ }, ?_, hready.commitWithGeneration hs', ?_⟩
  · simp only [commit, hread, EmbeddedDb.commitWithGeneration, hs', hview]
    rfl
  · have hvalues := (Sqlite.commitWithGeneration_eq_ok hs').2.1
    have hstored : ((s'.metadata.getD ∅).lookup "generation").getD 0 =
        Sqlite.storedInteger (saturatingAdd u64Max g 1) := by
      rw [hs] at hs'
      simp only [Sqlite.commitWithGeneration, if_pos hmem, Except.ok.injEq] at hs'
      rw [← hs']
      simp
    rw [hview]
    exact BufferedMap.ext (funext hvalues) rfl hstored

/-- A read that returns finds what the map has; it fails only if SQLite refuses it. -/
theorem getAnswered_cases (faults : Faults) (hready : db.sqlite.Ready) (key : String) :
    db.getAnswered faults key = .ok (db.view.get key) ∨
      (key ∉ db.pending ∧ (sqliteMaxLength < key.utf8ByteSize ∨
        ∃ call ∈ readCalls key, faults call ≠ none) ∧ ∃ e, db.getAnswered faults key = .error e) := by
  obtain ⟨m, kv, -, hs, -⟩ := hready
  have hget : db.sqlite.get key = .ok (db.sqlite.values.lookup key) := by
    rw [hs]
    rfl
  have hview : db.view.get key = (db.pending.lookup key).getD (db.sqlite.values.lookup key) := rfl
  rw [getAnswered, hview]
  cases hpending : db.pending.lookup key with
  | some value => exact .inl rfl
  | none =>
      have hresult : ∀ value, selectAnswered faults db.sqlite key = .ok value ↔
          (key.utf8ByteSize ≤ sqliteMaxLength ∧ ∀ call ∈ readCalls key, faults call = none) ∧
            db.sqlite.values.lookup key = value := by
        intro value
        simp only [selectAnswered, check_bind_eq_ok, answer_eq_ok, bindText_eq_ok, hget,
          Except.ok.injEq, readCalls, List.forall_mem_cons]
        tauto
      cases hread : selectAnswered faults db.sqlite key with
      | ok value => exact .inl (congrArg Except.ok ((hresult value).1 hread).2.symm)
      | error e =>
          refine .inr ⟨AList.lookup_eq_none.1 hpending, ?_, e, rfl⟩
          by_contra hfree
          push Not at hfree
          cases hread.symm.trans ((hresult _).2 ⟨hfree, rfl⟩)

end EmbeddedDb

/-! ## Runs -/

/-- The calls of one handle. A reopen finds the file of the handle, and anything beside it. -/
inductive DbOp
  | put (key : String) (value : Bytes)
  | remove (key : String)
  | get (key : String) (faults : Faults)
  | commit (faults : Faults)
  | reopen (legacy backup : Option Bytes)

namespace EmbeddedDb

section
variable (decode : Bytes → Except String LegacyDatabaseImage)

def reopen (db : EmbeddedDb) (legacy backup : Option Bytes) : Except String EmbeddedDb :=
  (DbDirectory.openAll decode { sqlite := some db.sqlite, legacy, backup }).2

def step (db : EmbeddedDb) : DbOp → Except String EmbeddedDb
  | .put key value => .ok (db.put key value)
  | .remove key => .ok (db.remove key)
  | .get _ _ => .ok db
  | .commit faults => .ok (db.commitAnswered faults).1
  | .reopen legacy backup => db.reopen decode legacy backup

/-- A call does to the handle what it does to the map. -/
def Refines (db : EmbeddedDb) : DbOp → Prop
  | .put key value => (db.put key value).view = db.view.put key value
  | .remove key => (db.remove key).view = db.view.remove key
  | .get key faults =>
      match db.getAnswered faults key with
      | .ok value => value = db.view.get key
      | .error _ => key ∉ db.pending ∧
          (sqliteMaxLength < key.utf8ByteSize ∨ ∃ call ∈ readCalls key, faults call ≠ none)
  | .commit faults =>
      match db.commitAnswered faults with
      | (db', .ok generation) =>
          db'.view = db.view.commit ∧ generation = db.view.generation + 1
      | (db', .error _) => db'.view = db.view
  | .reopen legacy backup =>
      match db.reopen decode legacy backup with
      | .ok db' => db'.view = db.view.reopen
      | .error _ => False

/-- A commit that nothing stops can count. -/
def Counts (db : EmbeddedDb) : DbOp → Prop
  | .commit faults => Unhindered faults db → db.view.generation < i64Max
  | _ => True

variable {db db' : EmbeddedDb}

theorem view_put (key : String) (value : Bytes) :
    (db.put key value).view = db.view.put key value := by
  refine BufferedMap.ext rfl (funext fun other => ?_) rfl
  by_cases hkey : other = key
  · subst hkey
    simp [view, put, BufferedMap.put]
  · simp [view, put, BufferedMap.put, hkey, AList.lookup_insert_ne hkey]

theorem view_remove (key : String) : (db.remove key).view = db.view.remove key := by
  refine BufferedMap.ext rfl (funext fun other => ?_) rfl
  by_cases hkey : other = key
  · subst hkey
    simp [view, remove, BufferedMap.remove]
  · simp [view, remove, BufferedMap.remove, hkey, AList.lookup_insert_ne hkey]

theorem reopen_ready (hready : db.sqlite.Ready) (legacy backup : Option Bytes) :
    db.reopen decode legacy backup = .ok { sqlite := db.sqlite, pending := ∅ } := by
  have hcheck : db.sqlite.initialized.checkSchema = .ok () := by
    rw [hready.initialized]
    obtain ⟨m, kv, -, hs, hversion, -⟩ := hready
    simp [Sqlite.checkSchema, hs, Sqlite.readMetadata, hversion, okOr, reject]
  simp only [reopen, DbDirectory.openAll, DbDirectory.openSteps, Option.getD_some, hcheck]
  exact congrArg (fun sqlite => Except.ok ({ sqlite, pending := ∅ } : EmbeddedDb)) hready.initialized

/-- A call of a handle on such a file refines the call of the map, except for a commit that does
not count. -/
theorem refines_iff (hready : db.sqlite.Ready) (op : DbOp) :
    db.Refines decode op ↔ db.Counts op := by
  cases op with
  | put key value => exact iff_of_true (view_put key value) trivial
  | remove key => exact iff_of_true (view_remove key) trivial
  | get key faults =>
      refine iff_of_true ?_ trivial
      rw [Refines]
      rcases getAnswered_cases faults hready key with hok | ⟨hnot, hrefused, e, herror⟩
      · rw [hok]
      · rw [herror]
        exact ⟨hnot, hrefused⟩
  | commit faults =>
      rw [Refines, Counts]
      rcases commitAnswered_cases faults hready with ⟨hfree, hsame⟩ | ⟨hstopped, e, herror⟩
      · obtain ⟨db', hcommit, -, hview⟩ := commit_ready hready
        rw [hsame, hcommit, imp_iff_right hfree]
        dsimp only
        rw [hview, BufferedMap.ext_iff]
        simp only [BufferedMap.commit, true_and, Sqlite.storedInteger, saturatingAdd, i64Max, u64Max]
        omega
      · rw [herror]
        exact iff_of_true rfl fun hfree => absurd hfree hstopped
  | reopen legacy backup =>
      refine iff_of_true ?_ trivial
      rw [Refines, reopen_ready decode hready]
      rfl

theorem ready_step (hready : db.sqlite.Ready) {op : DbOp} (h : db.step decode op = .ok db') :
    db'.sqlite.Ready := by
  cases op with
  | put key value => cases h; exact hready
  | remove key => cases h; exact hready
  | get key faults => cases h; exact hready
  | commit faults =>
      cases h
      rcases commitAnswered_cases faults hready with ⟨-, hsame⟩ | ⟨-, e, herror⟩
      · obtain ⟨db', hcommit, hready', -⟩ := commit_ready hready
        rw [hsame, hcommit]
        exact hready'
      · rw [herror]
        exact hready
  | reopen legacy backup =>
      rw [step, reopen_ready decode hready] at h
      cases h
      exact hready

theorem ready_importLegacy {s s' : Sqlite} {bytes : Bytes} (hready : s.Ready)
    (h : DbDirectory.importLegacy decode s bytes = .ok s') : s'.Ready := by
  rw [DbDirectory.importLegacy, bind_eq_ok] at h
  obtain ⟨image, -, h⟩ := h
  rw [check_bind_eq_ok] at h
  obtain ⟨-, h⟩ := h
  obtain ⟨hsqlite, -⟩ := foldl_put image.values { sqlite := s, pending := ∅ }
  simp only [EmbeddedDb.commitWithGeneration, hsqlite] at h
  cases hcommit : s.commitWithGeneration (image.values.entries.foldl (fun db e => db.put e.1 e.2)
      ({ sqlite := s, pending := ∅ } : EmbeddedDb)).pending image.generation with
  | error e => simp [hcommit] at h
  | ok written =>
      simp only [hcommit, check_bind_eq_ok, pure_eq_ok] at h
      exact h.2 ▸ hready.commitWithGeneration hcommit

theorem ready_of_open {d d' : DbDirectory} (h : d.openAll decode = (d', .ok db)) :
    db.sqlite.Ready := by
  simp only [DbDirectory.openAll, DbDirectory.openSteps] at h
  cases hcheck : (d.sqlite.getD .empty).initialized.checkSchema with
  | error e =>
      simp only [hcheck] at h
      cases (Prod.mk.inj h).2
  | ok u =>
      have hready := Sqlite.ready_of_checkSchema hcheck
      simp only [hcheck] at h
      split at h
      · split at h
        · cases (Prod.mk.inj h).2
        · next himport =>
          cases (Prod.mk.inj h).2
          exact ready_importLegacy decode hready himport
      · cases (Prod.mk.inj h).2
        exact hready

/-- In every run of a handle each call does what it does to a map with a write buffer, exactly if
each commit that nothing stops finds a generation below `2 ^ 63 - 1`. -/
theorem database_refines_iff {d d' : DbDirectory} (h : d.openAll decode = (d', .ok db))
    (ops : List DbOp) :
    Along (step decode) (Refines decode) db ops ↔ Along (step decode) Counts db ops :=
  along_congr (fun _ op hready => refines_iff decode hready op)
    (fun _ _ _ hready hstep => ready_step decode hready hstep) ops (ready_of_open decode h)

end

end EmbeddedDb

/-! An image whose generation is the largest that the column keeps. -/

namespace LastGeneration

open EmbeddedDb

def image : LegacyDatabaseImage := { schemaVersion := 1, generation := 2 ^ 63 - 1, values := ∅ }

def imageText : Bytes :=
  utf8 "\x7b\"schema_version\":1,\"generation\":9223372036854775807,\"values\":\x7b\x7d\x7d"

/-- The deserializer, on this text. -/
def decodeImage (bytes : Bytes) : Except String LegacyDatabaseImage :=
  if bytes = imageText then .ok image else .error "expected value at line 1 column 1"

/-- The file with the image in it. -/
def imported : Sqlite :=
  { metadata := some ((AList.insert "generation" (2 ^ 63 - 1)
      (Sqlite.empty.initialized.metadata.getD ∅)))
    kv := some ∅ }

theorem open_image : (DbDirectory.old imageText).openAll decodeImage =
    ({ sqlite := some imported, legacy := none, backup := some imageText },
      .ok { sqlite := imported, pending := ∅ }) := by
  have hdecode : decodeImage imageText = .ok image := if_pos rfl
  have himport : DbDirectory.importLegacy decodeImage Sqlite.empty.initialized imageText =
      .ok imported := by
    rw [DbDirectory.importLegacy, hdecode]
    rfl
  simp only [DbDirectory.openAll, DbDirectory.openSteps, DbDirectory.old, Option.getD_none,
    Sqlite.current_empty.checkSchema, himport]
  rfl

/-- The commit returns the next generation, and the database stays at the last one. -/
theorem generation_stands_still : ∃ d db db',
    (DbDirectory.old imageText).openAll decodeImage = (d, .ok db) ∧
      db.view.generation = 2 ^ 63 - 1 ∧
        db.commitAnswered (fun _ => none) = (db', .ok (2 ^ 63)) ∧
          db'.view.generation = 2 ^ 63 - 1 ∧
            ¬Along (step decodeImage) (Refines decodeImage) db [.commit fun _ => none] := by
  have hready := ready_of_open decodeImage open_image
  have hgeneration : (view { sqlite := imported, pending := ∅ }).generation = 2 ^ 63 - 1 := rfl
  have hfree : Unhindered (fun _ => none) { sqlite := imported, pending := ∅ } :=
    ⟨nofun, fun _ _ => rfl⟩
  obtain ⟨db', hcommit, -, hview⟩ := commit_ready hready
  rw [hgeneration] at hcommit hview
  rcases commitAnswered_cases (fun _ => none) hready with ⟨-, hsame⟩ | ⟨hstopped, -⟩
  · refine ⟨_, _, db', open_image, hgeneration, hsame.trans hcommit, ?_, ?_⟩
    · rw [hview]
      rfl
    · rintro ⟨hrefines, -⟩
      have hcounts := (refines_iff decodeImage hready _).1 hrefines hfree
      rw [hgeneration] at hcounts
      exact absurd hcounts (by decide)
  · exact absurd hfree hstopped

/-- From an empty directory on. -/
theorem database_refines_iff_empty :
    Along (step decodeImage) (Refines decodeImage)
      { sqlite := Sqlite.empty.initialized, pending := ∅ }
      [.put "a" [1], .commit fun _ => none, .remove "a", .reopen none none,
        .get "a" fun _ => none] := by
  have hopen : (DbDirectory.mk none none none).openAll decodeImage =
      ({ sqlite := some Sqlite.empty.initialized, legacy := none, backup := none },
        .ok { sqlite := Sqlite.empty.initialized, pending := ∅ }) := rfl
  refine (database_refines_iff decodeImage hopen _).2 ?_
  refine ⟨trivial, fun db hput => ⟨fun _ => ?_, fun _ _ => ⟨trivial, fun _ _ => ⟨trivial,
    fun _ _ => ⟨trivial, fun _ _ => trivial⟩⟩⟩⟩⟩
  cases hput
  decide

end LastGeneration

end IeumChain
