import IeumChain.ArchiveRecovery

/-!
# The limit of the active directory

An append compares the files that are there and the new record with the limit. The period marker
is written afterwards: where there is none yet, or a rollover has just removed it, its bytes come
on top of what was compared.
-/
namespace IeumChain

open ByteCodec Journal Text

namespace ArchiveStore

section
variable [Crypto] {a a' : ArchiveStore} {block : Block} {chain : Blockchain}

/-- A block that begins an active file: the first one, or one that turns the file before it into
a backup. -/
def OpensFile (a : ArchiveStore) (block : Block) : Prop := a.active = none ∨ a.RollsOver block

/-- The record and the period marker fit together. -/
def MarkerFits (a : ArchiveStore) (block : Block) : Prop :=
  (line Block.json block).length + (periodFromTimestamp block.timestamp).utf8ByteSize ≤
    a.maxActiveBytes

/-- Where there is an active file there is a marker. -/
def Marked (a : ArchiveStore) : Prop := a.active.isSome = true → a.period.isSome = true

theorem marked_append (h : a.appendFinalized block chain = .ok a') : a'.Marked := by
  rcases appendFinalized_eq_ok h with ⟨-, rfl⟩ | ⟨-, backup, -, rfl⟩
  · exact fun _ => rfl
  · exact fun _ => rfl

omit [Crypto] in
/-- A block that does not begin a file is compared with everything that is stored afterwards. -/
theorem activeBytes_of_not_opensFile (hmarked : a.Marked) (hopens : ¬a.OpensFile block) :
    ({ a with
        active := some (a.loadActiveBlocks ++ [block])
        period := some (periodFromTimestamp block.timestamp) } : ArchiveStore).activeBytes ≤
      a.maxActiveBytes := by
  rw [OpensFile, not_or] at hopens
  obtain ⟨hactive, hrolls⟩ := hopens
  have hsome : a.active.isSome = true := Option.isSome_iff_ne_none.2 hactive
  have hdue : ¬a.RolloverDue block := fun hdue => hrolls ⟨hdue, hsome⟩
  obtain ⟨current, hcurrent⟩ := Option.isSome_iff_exists.1 (hmarked hsome)
  rw [RolloverDue, not_or] at hdue
  obtain ⟨hsame, hfits⟩ := hdue
  have hperiod : periodFromTimestamp block.timestamp = current := by
    by_contra hne
    exact hsame ⟨current, hcurrent, fun h => hne h.symm⟩
  rw [activeBytes, hcurrent] at hfits
  rw [activeBytes, hperiod]
  simp only [loadActiveBlocks, Option.getD_some, contents_concat, List.length_append] at hfits ⊢
  omega

/-- After an append the directory is within the limit, unless the block begins a file and the
marker no longer fits. -/
theorem activeBytes_le_iff (hmarked : a.Marked) (h : a.appendFinalized block chain = .ok a') :
    a'.activeBytes ≤ a'.maxActiveBytes ↔ (a.OpensFile block → a.MarkerFits block) := by
  rcases appendFinalized_eq_ok h with ⟨hrolls, rfl⟩ | ⟨hrolls, backup, -, rfl⟩
  · by_cases hactive : a.active = none
    · rw [imp_iff_right (.inl hactive), MarkerFits,
        activeBytes_singleton (b := block) (by simp [loadActiveBlocks, hactive]) rfl]
    · have hopens : ¬a.OpensFile block := fun h => h.elim hactive hrolls
      exact iff_of_true (activeBytes_of_not_opensFile hmarked hopens) fun h => absurd h hopens
  · rw [imp_iff_right (.inr hrolls), MarkerFits, activeBytes_singleton rfl rfl]

/-- What holds of every append that succeeds, in a sequence of calls. A call that fails leaves
the active directory alone. -/
def AfterEach (P : ArchiveStore → Block → ArchiveStore → Prop) :
    ArchiveStore → List (Block × Blockchain) → Prop
  | _, [] => True
  | a, (block, chain) :: rest =>
      match a.appendFinalized block chain with
      | .ok a' => P a block a' ∧ AfterEach P a' rest
      | .error _ => AfterEach P a rest

theorem afterEach_cons {P : ArchiveStore → Block → ArchiveStore → Prop}
    {rest : List (Block × Blockchain)} (h : a.appendFinalized block chain = .ok a') :
    AfterEach P a ((block, chain) :: rest) ↔ P a block a' ∧ AfterEach P a' rest := by
  rw [AfterEach, h]

theorem afterEach_congr {P Q : ArchiveStore → Block → ArchiveStore → Prop}
    (h : ∀ a block chain a', a.Marked → a.appendFinalized block chain = .ok a' →
      (P a block a' ↔ Q a block a')) (hmarked : a.Marked) (calls : List (Block × Blockchain)) :
    AfterEach P a calls ↔ AfterEach Q a calls := by
  induction calls generalizing a with
  | nil => rfl
  | cons call rest ih =>
      obtain ⟨block, chain⟩ := call
      cases happend : a.appendFinalized block chain with
      | error e =>
          simp only [AfterEach, happend]
          exact ih hmarked
      | ok a' =>
          rw [afterEach_cons happend, afterEach_cons happend]
          exact and_congr (h a block chain a' hmarked happend) (ih (marked_append happend))

/-- From a new archive on, every append that succeeds leaves the active directory within the
limit exactly when the marker fits wherever a block begins a file. -/
theorem active_limit_iff {maxActiveBytes : ℕ} (hnew : ArchiveStore.new maxActiveBytes = .ok a)
    (calls : List (Block × Blockchain)) :
    AfterEach (fun _ _ a' => a'.activeBytes ≤ a'.maxActiveBytes) a calls ↔
      AfterEach (fun a block _ => a.OpensFile block → a.MarkerFits block) a calls := by
  rw [ArchiveStore.new, Outcome.check_bind_eq_ok] at hnew
  obtain ⟨-, hnew⟩ := hnew
  cases hnew
  have hmarked : Marked (ArchiveStore.mk maxActiveBytes none none ∅ ∅) :=
    fun hactive => absurd hactive Bool.false_ne_true
  exact afterEach_congr (fun _ _ _ _ hmarked happend => activeBytes_le_iff hmarked happend)
    hmarked calls

end

end ArchiveStore

/-! An archive whose limit is the line of its first block. -/

namespace Brimful

open NextMonth ArchiveStore

local instance brimfulCrypto : Crypto := nextMonthCrypto

def limit : ℕ := (line Block.json chain.tip).length

def full : ArchiveStore :=
  { maxActiveBytes := limit, active := none, period := none, backups := ∅, checkpoints := ∅ }

theorem limit_pos : 0 < limit := by
  rw [limit, line, List.length_append, List.length_singleton]
  omega

theorem period_genesis : periodFromTimestamp chain.tip.timestamp = "197001M" := by
  decide

/-- The marker of the month comes on top of a record that has all the room. -/
theorem marker_over_limit : ∃ a a', ArchiveStore.new limit = .ok a ∧
    a.appendFinalized chain.tip chain = .ok a' ∧ a'.maxActiveBytes < a'.activeBytes := by
  have hnew : ArchiveStore.new limit = .ok full := by
    have hle : limit ≤ maxActiveBlockBytes := length_line.1
    have hpos := limit_pos
    rw [ArchiveStore.new, Outcome.check_bind_eq_ok]
    exact ⟨Outcome.reject_eq_ok.2 (by omega), rfl⟩
  have hmax : full.maxActiveBytes = limit := by rw [full]
  have hsize : (line Block.json chain.tip).length ≤ full.maxActiveBytes := by rw [hmax, limit]
  obtain ⟨a', ha'⟩ := exists_appendFinalized chain hsize fun h => absurd h.2 Bool.false_ne_true
  refine ⟨full, a', hnew, ha', ?_⟩
  have hmarked : full.Marked := fun hactive => absurd hactive Bool.false_ne_true
  have hmarker : 0 < (periodFromTimestamp chain.tip.timestamp).utf8ByteSize := by
    rw [period_genesis]
    decide
  refine Nat.lt_of_not_le fun hle => ?_
  have hfits := (activeBytes_le_iff hmarked ha').1 hle (.inl rfl)
  rw [MarkerFits, hmax, limit] at hfits
  omega

/-- With the usual limit there is room for both. -/
theorem markerFits_genesis : archive.MarkerFits chain.tip := by
  have hline := Block.length_line_le (b := chain.tip) rfl rfl
  have hhash : chain.tip.hash.toList.length = 64 := length_hash _
  have hzeros : chain.tip.previousHash.toList.length = 64 := by decide
  have hsmall : chain.tip.producer.toList.length + (decimal chain.tip.height).toList.length +
      (decimal chain.tip.timestamp).toList.length ≤ 50 := by decide
  have hmarker : (periodFromTimestamp chain.tip.timestamp).utf8ByteSize ≤ 50 := by
    rw [period_genesis]
    decide
  have hmax : archive.maxActiveBytes = 100000000 := rfl
  rw [MarkerFits, hmax]
  omega

theorem active_limit_iff_january :
    AfterEach (fun _ _ a' => a'.activeBytes ≤ a'.maxActiveBytes) archive [(chain.tip, chain)] := by
  have hnew : ArchiveStore.new maxActiveBlockBytes = .ok archive := rfl
  refine (active_limit_iff hnew _).2 ?_
  rw [afterEach_cons Twice.append_genesis]
  exact ⟨fun _ => markerFits_genesis, trivial⟩

end Brimful

end IeumChain
