import IeumChain.BlockTime
import IeumChain.Library.KeyedLists
import IeumChain.Periods
import IeumChain.RecordStores

/-!
# The archive of finalized blocks

Blocks are appended to an active file. When the month changes or the active directory would
grow too large, the state before the block is written as a checkpoint, the active file
becomes a backup, and a new active file begins. Files hold the values they were written
from; a block counts with the bytes of its line.
-/
namespace IeumChain

open ByteCodec Text Outcome MachineWords FiniteMap Journal PaddedNames KeyedLists

def maxActiveBlockBytes : ℕ := 100000000

/-- The directories with their files: `blocks.jsonl`, `period`, the backups and the
checkpoints by name. -/
structure ArchiveStore where
  maxActiveBytes : ℕ
  active : Option (List Block)
  period : Option String
  backups : HashMap String (List Block)
  checkpoints : HashMap String StateSnapshot

def backupPartName (period : String) (part : ℕ) : String :=
  period ++ "-part" ++ padded 2 part ++ ".jsonl.zst"

/-- The first name that is free, from a part on. -/
def freeBackupPart (taken : HashMap String (List Block)) (period : String) :
    ℕ → ℕ → Option String
  | 0, _ => none
  | parts + 1, part =>
      if backupPartName period part ∈ taken then freeBackupPart taken period parts (part + 1)
      else some (backupPartName period part)

/-- Parts are numbered from 2 on in 32 bits. -/
def uniqueBackupPath (taken : HashMap String (List Block)) (period : String) : Option String :=
  if period ++ ".jsonl.zst" ∈ taken then freeBackupPart taken period (u32Max - 1) 2
  else some (period ++ ".jsonl.zst")

def checkpointName (period : String) (height : ℕ) : String :=
  period ++ "-h" ++ padded 12 height ++ ".json"

/-- The checkpoint whose name comes last. -/
def latestCheckpoint (checkpoints : HashMap String StateSnapshot) : Option StateSnapshot :=
  (lastName checkpoints.keys).bind checkpoints.lookup

def isBackupName (name : String) : Bool :=
  ".jsonl".toList.isSuffixOf name.toList || ".jsonl.zst".toList.isSuffixOf name.toList

/-! ## Sizes -/

theorem length_line_le {α : Type} (write : α → Json) (r : α) :
    (line write r).length ≤ 4 * (write r).length + 1 := by
  have hchars : ∀ chars : List Char,
      (chars.flatMap String.utf8EncodeChar).length ≤ 4 * chars.length := by
    intro chars
    induction chars with
    | nil => simp
    | cons c chars ih =>
        have hc : (String.utf8EncodeChar c).length ≤ 4 := by
          rw [String.length_utf8EncodeChar]
          exact Char.utf8Size_le_four c
        simp only [List.flatMap_cons, List.length_append, List.length_cons]
        omega
  have h := hchars (write r)
  rw [line, text, utf8_ofList, List.length_append, List.length_singleton]
  omega

/-- A block without transactions and events is small. -/
theorem Block.length_line_le {b : Block} (htransactions : b.transactions = [])
    (hevents : b.systemEvents = []) :
    (line Block.json b).length ≤ 24 * (b.previousHash.toList.length + b.producer.toList.length +
      b.hash.toList.length) + 4 * ((decimal b.height).toList.length +
        (decimal b.timestamp).toList.length) + 1000 := by
  have hline := IeumChain.length_line_le Block.json b
  have hprevious := length_jsonString_le b.previousHash
  have hproducer := length_jsonString_le b.producer
  have hhash := length_jsonString_le b.hash
  have hjson : (Block.json b).length ≤ (jsonString b.previousHash).length +
      (jsonString b.producer).length + (jsonString b.hash).length +
      (jsonNumber b.height).length + (jsonNumber b.timestamp).length + 100 := by
    simp only [Block.json, htransactions, hevents, if_true, jsonObject, jsonArray, List.map_nil,
      List.append_nil, List.map_cons, List.cons_append, List.nil_append,
      joinChars, List.length_cons, List.length_nil, List.length_append]
    have hnames : (jsonString "height").length + (jsonString "previous_hash").length +
        (jsonString "timestamp").length + (jsonString "producer").length +
        (jsonString "transactions").length + (jsonString "hash").length = 64 := by decide
    omega
  simp only [jsonNumber] at hjson
  omega

/-! ## Names -/

theorem isBackupName_append (name : String) : isBackupName (name ++ ".jsonl.zst") = true := by
  rw [isBackupName, Bool.or_eq_true]
  refine .inr (List.isSuffixOf_iff_suffix.2 ?_)
  rw [String.toList_append]
  exact List.suffix_append _ _

theorem freeBackupPart_eq_some {taken : HashMap String (List Block)} {period name : String}
    {parts part : ℕ} (h : freeBackupPart taken period parts part = some name) :
    name ∉ taken ∧ isBackupName name = true := by
  induction parts generalizing part with
  | zero => cases h
  | succ parts ih =>
      rw [freeBackupPart] at h
      split_ifs at h with htaken
      · exact ih h
      · cases h
        exact ⟨htaken, isBackupName_append _⟩

/-- The name of a new backup is free, and backups are found by it. -/
theorem uniqueBackupPath_eq_some {taken : HashMap String (List Block)} {period name : String}
    (h : uniqueBackupPath taken period = some name) : name ∉ taken ∧ isBackupName name = true := by
  rw [uniqueBackupPath] at h
  split_ifs at h with htaken
  · exact freeBackupPart_eq_some h
  · cases h
    exact ⟨htaken, isBackupName_append _⟩

theorem toList_checkpointName (period : String) (height : ℕ) :
    (checkpointName period height).toList =
      period.toList ++ (['-', 'h'] ++ ((padded 12 height).toList ++ ".json".toList)) := by
  simp only [checkpointName, String.toList_append, List.append_assoc]
  rfl

/-- Checkpoints sort by month, then by height. -/
theorem checkpointName_le {s t m n : ℕ} (hst : s ≤ t) (ht : t < Period.yearTenThousand)
    (hmn : m ≤ n) (hn : n < 10 ^ 12) :
    checkpointName (periodFromTimestamp s) m ≤ checkpointName (periodFromTimestamp t) n := by
  have hlength : (periodFromTimestamp s).toList.length = (periodFromTimestamp t).toList.length := by
    rw [Period.length_period (hst.trans_lt ht), Period.length_period ht]
  rcases Period.period_le hst ht with heq | hlt
  · rw [heq]
    rcases hmn.lt_or_eq with hless | hsame
    · refine le_of_lt (String.lt_iff_toList_lt.2 ?_)
      rw [toList_checkpointName, toList_checkpointName, append_lt_append_iff rfl,
        append_lt_append_iff rfl, append_lt_append_iff
          (by rw [length_padded (by decide) hn, length_padded (by decide) (hmn.trans_lt hn)])]
      exact .inr ⟨rfl, .inr ⟨rfl, .inl (padded_lt (by decide) hless hn)⟩⟩
    · rw [hsame]
  · refine le_of_lt (String.lt_iff_toList_lt.2 ?_)
    rw [toList_checkpointName, toList_checkpointName, append_lt_append_iff hlength]
    exact .inl hlt

/-- A checkpoint whose name is not before any other is the latest one. -/
theorem latestCheckpoint_insert {checkpoints : HashMap String StateSnapshot} {name : String}
    (snapshot : StateSnapshot) (h : ∀ other ∈ checkpoints.keys, other ≤ name) :
    latestCheckpoint (checkpoints.insert name snapshot) = some snapshot := by
  have hlast : lastName (checkpoints.insert name snapshot).keys = some name := by
    refine lastName_eq_some ?_ ?_
    · rw [AList.keys_insert]
      exact List.mem_cons_self
    · intro other hother
      rw [AList.keys_insert, List.mem_cons] at hother
      rcases hother with rfl | hold
      · exact le_rfl
      · exact h other (List.mem_of_mem_erase hold)
  rw [latestCheckpoint, hlast, Option.bind_some, AList.lookup_insert]

namespace ArchiveStore

/-- On directories without files. -/
def new (maxActiveBytes : ℕ) : Except String ArchiveStore := do
  reject (maxActiveBytes = 0 ∨ maxActiveBlockBytes < maxActiveBytes)
    "활성 블록 총합 제한은 1바이트 이상 100MB 이하여야 합니다."
  pure { maxActiveBytes, active := none, period := none, backups := ∅, checkpoints := ∅ }

def loadActiveBlocks (a : ArchiveStore) : List Block := a.active.getD []

/-- The size of the active directory. -/
def activeBytes (a : ArchiveStore) : ℕ :=
  (contents Block.json a.loadActiveBlocks).length + (a.period.getD "").utf8ByteSize

theorem activeBytes_singleton {a : ArchiveStore} {b : Block} {period : String}
    (hactive : a.active = some [b]) (hperiod : a.period = some period) :
    a.activeBytes = (line Block.json b).length + period.utf8ByteSize := by
  rw [activeBytes, loadActiveBlocks, hactive, hperiod]
  simp [contents]

/-- Whether a block opens a new active file. -/
def RolloverDue (a : ArchiveStore) (block : Block) : Prop :=
  (∃ current ∈ a.period, current ≠ periodFromTimestamp block.timestamp) ∨
    a.maxActiveBytes < a.activeBytes + (line Block.json block).length

instance (a : ArchiveStore) (block : Block) : Decidable (a.RolloverDue block) :=
  inferInstanceAs (Decidable (_ ∨ _))

/-- The period a rollover at this block is named after. -/
def closingPeriod (a : ArchiveStore) (block : Block) : String :=
  a.period.getD (periodFromTimestamp block.timestamp)

def loadLatestSnapshot (a : ArchiveStore) : Option StateSnapshot := latestCheckpoint a.checkpoints

def readBackupBlocks (a : ArchiveStore) : List Block :=
  sortByKey Block.height ((a.backups.entries.filter fun e => isBackupName e.1).flatMap fun e => e.2)

def loadAllBlocks (a : ArchiveStore) : List Block :=
  dedupByKey Block.height (sortByKey Block.height (a.readBackupBlocks ++ a.loadActiveBlocks))

/-- What a start reads of the archive. -/
def disk (a : ArchiveStore) (state : Option StateSnapshot) : Disk :=
  { state, checkpoint := a.loadLatestSnapshot, activeBlocks := a.loadActiveBlocks
    archivedBlocks := a.loadAllBlocks }

section
variable [Crypto]

def rollover (a : ArchiveStore) (chain : Blockchain) (period : String) :
    Except String ArchiveStore :=
  match a.active with
  | none => .ok a
  | some blocks => do
      let snapshot := StateSnapshot.fromChain chain
      let backup ← okOr (uniqueBackupPath a.backups period)
        "internal error: entered unreachable code"
      pure { a with
        active := none, period := none, backups := a.backups.insert backup blocks
        checkpoints := a.checkpoints.insert (checkpointName period snapshot.height) snapshot }

def appendFinalized (a : ArchiveStore) (block : Block) (chainBefore : Blockchain) :
    Except String ArchiveStore := do
  reject (a.maxActiveBytes < (line Block.json block).length)
    "블록 하나가 활성 블록 총합 제한보다 큽니다."
  let a ← (if a.RolloverDue block then a.rollover chainBefore (a.closingPeriod block) else .ok a)
  pure { a with
    active := some (a.loadActiveBlocks ++ [block])
    period := some (periodFromTimestamp block.timestamp) }

/-- Whether a block moves the active blocks to a backup. -/
def RollsOver (a : ArchiveStore) (block : Block) : Prop :=
  a.RolloverDue block ∧ a.active.isSome = true

instance (a : ArchiveStore) (block : Block) : Decidable (a.RollsOver block) :=
  inferInstanceAs (Decidable (_ ∧ _))

/-- An append adds to the active blocks, or first turns them into a backup. -/
theorem appendFinalized_eq_ok {a a' : ArchiveStore} {block : Block} {chain : Blockchain}
    (h : a.appendFinalized block chain = .ok a') :
    (¬a.RollsOver block ∧
      a' = { a with
        active := some (a.loadActiveBlocks ++ [block])
        period := some (periodFromTimestamp block.timestamp) }) ∨
    (a.RollsOver block ∧
      ∃ backup, uniqueBackupPath a.backups (a.closingPeriod block) = some backup ∧
        a' = { a with
          active := some [block]
          period := some (periodFromTimestamp block.timestamp)
          backups := a.backups.insert backup a.loadActiveBlocks
          checkpoints := a.checkpoints.insert
            (checkpointName (a.closingPeriod block) chain.tipHeight)
            (StateSnapshot.fromChain chain) }) := by
  rw [appendFinalized, check_bind_eq_ok] at h
  simp only [bind_eq_ok, pure_eq_ok] at h
  obtain ⟨-, a₁, ha₁, rfl⟩ := h
  by_cases hdue : a.RolloverDue block
  · rw [if_pos hdue, rollover] at ha₁
    cases hactive : a.active with
    | none =>
        rw [hactive] at ha₁
        cases ha₁
        exact .inl ⟨fun hrolls => by simp [RollsOver, hactive] at hrolls, rfl⟩
    | some blocks =>
        rw [hactive] at ha₁
        simp only [bind_eq_ok, okOr_eq_ok, pure_eq_ok] at ha₁
        obtain ⟨backup, hbackup, rfl⟩ := ha₁
        refine .inr ⟨⟨hdue, by rw [hactive]; rfl⟩, backup, hbackup, ?_⟩
        simp [loadActiveBlocks, hactive, StateSnapshot.fromChain]
  · rw [if_neg hdue] at ha₁
    cases ha₁
    exact .inl ⟨fun hrolls => hdue hrolls.1, rfl⟩

/-- What an append needs: the record fits, and a rollover finds a name. -/
theorem exists_appendFinalized {a : ArchiveStore} {block : Block} (chain : Blockchain)
    (hsize : (line Block.json block).length ≤ a.maxActiveBytes)
    (hname : a.RollsOver block →
      ∃ backup, uniqueBackupPath a.backups (a.closingPeriod block) = some backup) :
    ∃ a', a.appendFinalized block chain = .ok a' := by
  have hfits : ¬a.maxActiveBytes < (line Block.json block).length := by omega
  have hrollover : ∃ a₁, (if a.RolloverDue block then
      a.rollover chain (a.closingPeriod block) else .ok a) = .ok a₁ := by
    by_cases hdue : a.RolloverDue block
    · rw [if_pos hdue, rollover]
      cases hactive : a.active with
      | none => exact ⟨a, rfl⟩
      | some blocks =>
          obtain ⟨backup, hbackup⟩ := hname ⟨hdue, by rw [hactive]; rfl⟩
          simp only [hbackup, okOr]
          exact ⟨_, rfl⟩
    · exact ⟨a, if_neg hdue⟩
  obtain ⟨a₁, ha₁⟩ := hrollover
  exact ⟨_, check_bind_eq_ok.2 ⟨reject_eq_ok.2 hfits, bind_eq_ok.2 ⟨a₁, ha₁, rfl⟩⟩⟩

end

end ArchiveStore

end IeumChain
