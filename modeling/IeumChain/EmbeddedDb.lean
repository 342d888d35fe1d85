import IeumChain.Library.ByteCodec
import IeumChain.Library.FiniteMap
import IeumChain.Library.MachineWords
import IeumChain.Library.Outcome
import IeumChain.Library.Text

/-!
# The embedded database

A key-value store in one SQLite file. Puts and removals wait in memory until a commit writes
them in one transaction. What an open does to the directory is a list of steps, each of which is
durable by itself, so that a crash is a prefix of the list. The database of the first versions
was one JSON file; an open that finds no SQLite file reads it in.
-/
namespace IeumChain

open ByteCodec Text Outcome MachineWords FiniteMap

/-- The tables of the file, as far as they exist. -/
structure Sqlite where
  metadata : Option (HashMap String ℕ)
  kv : Option (HashMap String Bytes)

structure LegacyDatabaseImage where
  schemaVersion : ℕ
  generation : ℕ
  values : HashMap String Bytes

/-- `ieum-state.sqlite3`, `ieum-state.db` and `ieum-state.legacy-v1.json`. -/
structure DbDirectory where
  sqlite : Option Sqlite
  legacy : Option Bytes
  backup : Option Bytes

namespace Sqlite

def empty : Sqlite := ⟨none, none⟩

def createMetadata (s : Sqlite) : Sqlite := { s with metadata := some (s.metadata.getD ∅) }

def createKv (s : Sqlite) : Sqlite := { s with kv := some (s.kv.getD ∅) }

def insertOrIgnore (m : HashMap String ℕ) (name : String) (value : ℕ) : HashMap String ℕ :=
  if name ∈ m then m else m.insert name value

def insertDefaults (s : Sqlite) : Sqlite :=
  { s with metadata := s.metadata.map fun m =>
      insertOrIgnore (insertOrIgnore m "schema_version" 2) "generation" 0 }

def readMetadata (s : Sqlite) (name : String) : Except String ℕ :=
  match s.metadata with
  | none => .error "no such table: metadata"
  | some m => okOr (m.lookup name) ("SQLite metadata가 없습니다: " ++ name)

/-- The file after each statement of the schema. -/
def schemaSteps (s : Sqlite) : List Sqlite :=
  [s, s.createMetadata, s.createMetadata.createKv, s.createMetadata.createKv.insertDefaults]

def initialized (s : Sqlite) : Sqlite := s.createMetadata.createKv.insertDefaults

def checkSchema (s : Sqlite) : Except String Unit := do
  let schema ← s.readMetadata "schema_version"
  reject (schema ≠ 2) ("지원하지 않는 SQLite schema입니다: " ++ decimal schema)

/-- Writes of the pending changes, the last one for each key. -/
def applyPending (kv : HashMap String Bytes) (pending : HashMap String (Option Bytes)) :
    HashMap String Bytes :=
  pending.entries.foldl (fun kv e =>
    match e.2 with
    | some value => kv.insert e.1 value
    | none => kv.erase e.1) kv

/-- A number as an integer column keeps it. SQLite takes a literal past `2 ^ 63 - 1` for a
floating-point number, which is read as the largest integer. -/
def storedInteger (n : ℕ) : ℕ := min n i64Max

/-- One transaction: the changes and the generation, or nothing. -/
def commitWithGeneration (s : Sqlite) (pending : HashMap String (Option Bytes))
    (generation : ℕ) : Except String Sqlite :=
  match s.kv, s.metadata with
  | some kv, some m =>
      .ok { kv := some (applyPending kv pending)
            metadata := some (if "generation" ∈ m
              then m.insert "generation" (storedInteger generation) else m) }
  | _, _ => .error "no such table: kv"

def get (s : Sqlite) (key : String) : Except String (Option Bytes) :=
  match s.kv with
  | none => .error "no such table: kv"
  | some kv => .ok (kv.lookup key)

end Sqlite

/-- An open database: what is on disk and what waits for the commit. -/
structure EmbeddedDb where
  sqlite : Sqlite
  pending : HashMap String (Option Bytes)

namespace EmbeddedDb

def get (db : EmbeddedDb) (key : String) : Except String (Option Bytes) :=
  match db.pending.lookup key with
  | some value => .ok value
  | none => db.sqlite.get key

def put (db : EmbeddedDb) (key : String) (value : Bytes) : EmbeddedDb :=
  { db with pending := db.pending.insert key (some value) }

def remove (db : EmbeddedDb) (key : String) : EmbeddedDb :=
  { db with pending := db.pending.insert key none }

/-- A failed transaction keeps the pending changes. -/
def commitWithGeneration (db : EmbeddedDb) (generation : ℕ) : EmbeddedDb × Except String Unit :=
  match db.sqlite.commitWithGeneration db.pending generation with
  | .error e => (db, .error e)
  | .ok sqlite => ({ sqlite, pending := ∅ }, .ok ())

def commit (db : EmbeddedDb) : EmbeddedDb × Except String ℕ :=
  match db.sqlite.readMetadata "generation" with
  | .error e => (db, .error e)
  | .ok generation =>
      let next := saturatingAdd u64Max generation 1
      let (db, result) := db.commitWithGeneration next
      (db, result.map fun _ => next)

end EmbeddedDb

namespace DbDirectory

section
variable (decode : Bytes → Except String LegacyDatabaseImage)

/-- The database with the values of the image, in one transaction. -/
def importLegacy (s : Sqlite) (bytes : Bytes) : Except String Sqlite := do
  let legacy ← (decode bytes).mapError ("기존 embedded DB 손상: " ++ ·)
  reject (legacy.schemaVersion ≠ 1) "지원하지 않는 기존 embedded DB schema입니다."
  let migrated := legacy.values.entries.foldl (fun db e => db.put e.1 e.2)
    ({ sqlite := s, pending := ∅ } : EmbeddedDb)
  let (migrated, result) := migrated.commitWithGeneration legacy.generation
  result
  pure migrated.sqlite

/-- The directory after each step of an open, and what the open returns. Whether the image is
read in depends on whether there was a SQLite file before the first step. -/
def openSteps (d : DbDirectory) : List DbDirectory × Except String Unit :=
  let found := d.sqlite.getD .empty
  let schema := found.schemaSteps.map fun s => { d with sqlite := some s }
  match found.initialized.checkSchema with
  | .error e => (schema, .error e)
  | .ok () =>
      match d.sqlite, d.legacy with
      | none, some bytes =>
          match importLegacy decode found.initialized bytes with
          | .error e => (schema, .error e)
          | .ok s =>
              (schema ++ [{ d with sqlite := some s },
                { sqlite := some s, legacy := none, backup := some bytes }], .ok ())
      | _, _ => (schema, .ok ())

/-- An open that a crash ends after some of its steps. -/
def openCut (d : DbDirectory) (steps : ℕ) : DbDirectory :=
  ((d.openSteps decode).1.take steps).getLastD d

/-- An open that comes to its end. -/
def openAll (d : DbDirectory) : DbDirectory × Except String EmbeddedDb :=
  let (steps, result) := d.openSteps decode
  let d := steps.getLastD d
  (d, result.map fun _ => { sqlite := d.sqlite.getD .empty, pending := ∅ })

end

end DbDirectory

end IeumChain
