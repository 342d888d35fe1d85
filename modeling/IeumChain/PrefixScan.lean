import IeumChain.DbTransactions
import IeumChain.Library.KeyedLists
import IeumChain.Library.LikePattern
import Mathlib.Data.String.Basic

/-!
# Scans by prefix

A scan takes the rows whose key matches a LIKE pattern and then the pending changes whose key
starts with the prefix. The pattern compares ASCII letters without case, the other test does not.
-/
namespace IeumChain

open ByteCodec Text Outcome MachineWords FiniteMap KeyedLists LikePattern

/-- The longest pattern that LIKE takes. -/
def sqliteMaxLikePatternLength : ℕ := 50000

def scanPattern (start : String) : String := String.ofList (startPattern start.toList)

def sortByName (rows : List (String × Bytes)) : List (String × Bytes) :=
  rows.insertionSort (·.1 ≤ ·.1)

/-- The rows whose key matches the pattern, by key. -/
def likeRows (kv : HashMap String Bytes) (pattern : String) : List (String × Bytes) :=
  sortByName ((kv.entries.filter fun e => like '\\' pattern.toList e.1.toList).map
    fun e => (e.1, e.2))

/-- `SELECT key, value FROM kv WHERE key LIKE ?1 ESCAPE '\' ORDER BY key`. The pattern is looked at
with the first row. -/
def selectLike (kv : HashMap String Bytes) (pattern : String) :
    Except String (List (String × Bytes)) := do
  reject (kv.entries ≠ [] ∧ sqliteMaxLikePatternLength < pattern.utf8ByteSize)
    "LIKE or GLOB pattern too complex"
  pure (likeRows kv pattern)

/-- A pending change replaces or removes the row of its key. -/
def overlayRow (start : String) (values : List (String × Bytes)) (e : (_ : String) × Option Bytes) :
    List (String × Bytes) :=
  if startsWith e.1 start then
    let values := values.filter fun row => row.1 ≠ e.1
    match e.2 with
    | some value => values ++ [(e.1, value)]
    | none => values
  else values

def EmbeddedDb.scanPrefix (db : EmbeddedDb) (start : String) :
    Except String (List (String × Bytes)) := do
  let kv ← okOr db.sqlite.kv "no such table: kv"
  bindText (scanPattern start)
  let rows ← selectLike kv (scanPattern start)
  pure (sortByName (db.pending.entries.foldl (overlayRow start) rows))

namespace PrefixScan

/-- A scan returns the pairs that `get` finds under the prefix, each once, by key. -/
def Exact (db : EmbeddedDb) (start : String) : Prop :=
  ∃ pairs, db.scanPrefix start = .ok pairs ∧
    (∀ key value, (key, value) ∈ pairs ↔ db.get key = .ok (some value) ∧ startsWith key start) ∧
      pairs.Pairwise (·.1 < ·.1)

/-- The pattern is not too long. -/
def PatternFits (kv : HashMap String Bytes) (start : String) : Prop :=
  (scanPattern start).utf8ByteSize ≤
    if kv.entries = [] then sqliteMaxLength else sqliteMaxLikePatternLength

instance (kv : HashMap String Bytes) (start : String) : Decidable (PatternFits kv start) :=
  inferInstanceAs (Decidable (_ ≤ _))

/-- No committed key only resembles the prefix. -/
def NoneResembles (kv : HashMap String Bytes) (start : String) : Prop :=
  ∀ key ∈ kv, Resembles start.toList key.toList → startsWith key start

section
variable {kv : HashMap String Bytes} {start : String} {rows : List (String × Bytes)}

theorem startsWith_iff {key : String} : startsWith key start = true ↔ start.toList <+: key.toList :=
  List.isPrefixOf_iff_prefix

/-- What a change does to the row of its key, and to no other. -/
theorem mem_overlayRow {e : (_ : String) × Option Bytes} {key : String} {value : Bytes} :
    (key, value) ∈ overlayRow start rows e ↔
      if startsWith e.1 start ∧ key = e.1 then e.2 = some value else (key, value) ∈ rows := by
  obtain ⟨name, change⟩ := e
  unfold overlayRow
  by_cases hstart : startsWith name start = true
  · by_cases hkey : key = name
    · subst hkey
      cases change <;> simp [hstart, eq_comm]
    · cases change <;> simp [hstart, hkey]
  · simp [hstart]

theorem nodup_overlayRow {e : (_ : String) × Option Bytes} (h : (rows.map Prod.fst).Nodup) :
    ((overlayRow start rows e).map Prod.fst).Nodup := by
  obtain ⟨name, change⟩ := e
  have hfilter : ((rows.filter fun row => row.1 ≠ name).map Prod.fst).Nodup :=
    h.sublist (List.filter_sublist.map Prod.fst)
  unfold overlayRow
  split_ifs
  · cases change with
    | none => exact hfilter
    | some value =>
        simp only [List.map_append, List.map_cons, List.map_nil]
        refine List.Nodup.append hfilter (List.nodup_singleton name) ?_
        simp [List.disjoint_singleton]
  · exact h

theorem mem_overlay (pending : HashMap String (Option Bytes)) {key : String} {value : Bytes} :
    (key, value) ∈ pending.entries.foldl (overlayRow start) rows ↔
      if startsWith key start then
        (pending.lookup key).elim ((key, value) ∈ rows) (· = some value)
      else (key, value) ∈ rows := by
  obtain ⟨entries, hnodup⟩ := pending
  dsimp only [AList.lookup]
  induction entries generalizing rows with
  | nil => simp
  | cons e rest ih =>
      obtain ⟨name, change⟩ := e
      rw [List.nodupKeys_cons] at hnodup
      rw [List.foldl_cons, ih hnodup.2, mem_overlayRow]
      by_cases hkey : key = name
      · subst hkey
        rw [List.dlookup_cons_eq, List.dlookup_eq_none.2 hnodup.1]
        by_cases hstart : startsWith key start = true <;> simp [hstart]
      · rw [List.dlookup_cons_ne _ _ hkey]
        simp [hkey]

theorem nodup_overlay (entries : List ((_ : String) × Option Bytes))
    (h : (rows.map Prod.fst).Nodup) :
    ((entries.foldl (overlayRow start) rows).map Prod.fst).Nodup := by
  induction entries generalizing rows with
  | nil => exact h
  | cons e rest ih => exact ih (nodup_overlayRow h)

theorem mem_likeRows {key : String} {value : Bytes} :
    (key, value) ∈ likeRows kv (scanPattern start) ↔
      kv.lookup key = some value ∧ Resembles start.toList key.toList := by
  rw [likeRows, sortByName, List.mem_insertionSort, List.mem_map]
  simp only [List.mem_filter, scanPattern, String.toList_ofList, like_startPattern]
  constructor
  · rintro ⟨e, ⟨hmem, hlike⟩, heq⟩
    cases heq
    exact ⟨AList.mem_lookup_iff.2 hmem, hlike⟩
  · rintro ⟨hmem, hlike⟩
    exact ⟨⟨key, value⟩, ⟨AList.mem_lookup_iff.1 hmem, hlike⟩, rfl⟩

theorem nodup_likeRows : ((likeRows kv (scanPattern start)).map Prod.fst).Nodup := by
  have hkeys : (((kv.entries.filter fun e =>
      like '\\' (scanPattern start).toList e.1.toList).map fun e => (e.1, e.2)).map
        Prod.fst).Nodup := by
    rw [List.map_map]
    exact kv.keys_nodup.sublist (List.filter_sublist.map Sigma.fst)
  exact ((List.perm_insertionSort _ _).map Prod.fst).nodup_iff.2 hkeys

theorem patternFits_iff : PatternFits kv start ↔ bindText (scanPattern start) = .ok () ∧
    selectLike kv (scanPattern start) = .ok (likeRows kv (scanPattern start)) := by
  rw [PatternFits, bindText_eq_ok, selectLike, check_bind_eq_ok, reject_eq_ok, sqliteMaxLength,
    sqliteMaxLikePatternLength, pure_eq_ok, eq_self, and_true]
  split_ifs with hnil
  · simp [hnil]
  · simp only [ne_eq, hnil, not_false_eq_true, true_and]
    omega

variable {pending : HashMap String (Option Bytes)} {metadata : Option (HashMap String ℕ)}

/-- What a scan returns, if it does. -/
def scanned (kv : HashMap String Bytes) (pending : HashMap String (Option Bytes)) (start : String) :
    List (String × Bytes) :=
  sortByName (pending.entries.foldl (overlayRow start) (likeRows kv (scanPattern start)))

theorem scanPrefix_eq_ok {pairs : List (String × Bytes)} :
    EmbeddedDb.scanPrefix { sqlite := { metadata, kv := some kv }, pending } start = .ok pairs ↔
      PatternFits kv start ∧ pairs = scanned kv pending start := by
  have hrows : ∀ rows, selectLike kv (scanPattern start) = .ok rows ↔
      selectLike kv (scanPattern start) = .ok (likeRows kv (scanPattern start)) ∧
        rows = likeRows kv (scanPattern start) := by
    intro rows
    simp only [selectLike, check_bind_eq_ok, pure_eq_ok, and_true, eq_comm (a := rows)]
  simp only [EmbeddedDb.scanPrefix, bind_eq_ok, okOr_eq_ok, Option.some.injEq, exists_eq_left',
    pure_eq_ok, patternFits_iff]
  constructor
  · rintro ⟨_, hbind, rows, hselect, rfl⟩
    obtain ⟨hok, rfl⟩ := (hrows rows).1 hselect
    exact ⟨⟨hbind, hok⟩, rfl⟩
  · rintro ⟨⟨hbind, hok⟩, rfl⟩
    exact ⟨(), hbind, _, hok, rfl⟩

theorem mem_scanned {key : String} {value : Bytes} : (key, value) ∈ scanned kv pending start ↔
    if startsWith key start then
      (pending.lookup key).elim (kv.lookup key = some value) (· = some value)
    else kv.lookup key = some value ∧ Resembles start.toList key.toList := by
  rw [scanned, sortByName, List.mem_insertionSort, mem_overlay, mem_likeRows]
  split_ifs with hstart
  · have hresembles := resembles_of_prefix (startsWith_iff.1 hstart)
    cases pending.lookup key <;> simp [hresembles]
  · rfl

theorem get_eq {key : String} {value : Bytes} :
    EmbeddedDb.get { sqlite := { metadata, kv := some kv }, pending } key = .ok (some value) ↔
      (pending.lookup key).elim (kv.lookup key = some value) (· = some value) := by
  rw [EmbeddedDb.get]
  cases pending.lookup key <;> simp [Sqlite.get]

end

/-- A scan is exact if and only if the pattern is not too long and no committed key only resembles
the prefix. -/
theorem scan_exact_iff (metadata : Option (HashMap String ℕ)) (kv : HashMap String Bytes)
    (pending : HashMap String (Option Bytes)) (start : String) :
    Exact { sqlite := { metadata, kv := some kv }, pending } start ↔
      PatternFits kv start ∧ NoneResembles kv start := by
  simp only [Exact, scanPrefix_eq_ok, get_eq, and_assoc, exists_and_left, exists_eq_left,
    mem_scanned]
  refine and_congr_right fun _ => ?_
  have hsorted : (scanned kv pending start).Pairwise (·.1 < ·.1) :=
    insertionSort_strict Prod.fst (fun _ _ => Iff.rfl) (nodup_overlay _ nodup_likeRows)
  rw [and_iff_left hsorted]
  constructor
  · intro hexact key hkey hresembles
    by_contra hstart
    obtain ⟨value, hvalue⟩ := Option.isSome_iff_exists.1 (AList.lookup_isSome.2 hkey)
    have hfound := (hexact key value).1 (by rw [if_neg hstart]; exact ⟨hvalue, hresembles⟩)
    exact hstart hfound.2
  · intro hnone key value
    split_ifs with hstart
    · exact (and_iff_left hstart).symm
    · refine iff_of_false ?_ fun h => hstart h.2
      rintro ⟨hvalue, hresembles⟩
      exact hstart (hnone key (AList.lookup_isSome.1 (by rw [hvalue]; rfl)) hresembles)

/-! Two committed keys that differ in the case of a letter. -/

def peers : HashMap String Bytes := (AList.singleton "Peer/1" [1]).insert "peer/1" [2]

/-- The scan returns a key that does not start with the prefix. -/
theorem other_case_found : ∃ pairs,
    EmbeddedDb.scanPrefix { sqlite := { metadata := none, kv := some peers }, pending := ∅ } "peer/" =
      .ok pairs ∧ ("Peer/1", [1]) ∈ pairs ∧ startsWith "Peer/1" "peer/" = false ∧
        ¬Exact { sqlite := { metadata := none, kv := some peers }, pending := ∅ } "peer/" := by
  have hfits : PatternFits peers "peer/" := by decide
  have hresembles : Resembles "peer/".toList "Peer/1".toList := by
    rw [Resembles, if_neg (by decide)]
    exact ⟨['1'], by decide⟩
  have hfound : ("Peer/1", [1]) ∈ scanned peers ∅ "peer/" := by
    rw [mem_scanned, if_neg (by decide)]
    exact ⟨by decide, hresembles⟩
  refine ⟨_, scanPrefix_eq_ok.2 ⟨hfits, rfl⟩, hfound, rfl, ?_⟩
  rintro ⟨pairs, hpairs, hall, -⟩
  rw [(scanPrefix_eq_ok.1 hpairs).2] at hall
  exact absurd ((hall _ _).1 hfound).2 (by decide)

end PrefixScan

end IeumChain
