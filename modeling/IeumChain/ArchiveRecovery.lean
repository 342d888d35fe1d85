import IeumChain.ArchiveHistory

/-!
# Recovery from the archive

A finalized block is appended to the archive and then the state is committed, in two steps. A
crash between them makes the node take the block once more, and a certified snapshot moves the
committed state past the archive. An append does not look at what the archive ends with, so a
start that has nothing but the archive can find a block twice, or a gap. Where no checkpoint
exists a repeated block is passed over; behind a checkpoint it is not.
-/
namespace IeumChain

open ByteCodec Text Outcome MachineWords FiniteMap Journal PaddedNames KeyedLists

/-- A node with its archive and its committed state. For the record: the state after the block
appended last, and the chain before that block with the block. -/
structure ArchivingNode where
  archive : ArchiveStore
  store : Option StateSnapshot
  chain : Option Blockchain
  archived : Blockchain
  lastAppend : Option (Blockchain × Block)

namespace ArchivingNode

/-- The two `Cut` events are crashes between the append and the commit. -/
inductive Event
  | start
  | startCut
  | installFinalized (block : Block)
  | installFinalizedCut (block : Block)
  | installCertifiedSnapshot (snapshot : StateSnapshot) (certificate : SnapshotCertificate)
  | stop

section
variable [Crypto]

/-- Before the first start of a network. -/
def fresh (genesis : Blockchain) (archive : ArchiveStore) : ArchivingNode :=
  { archive, store := none, chain := none, archived := genesis, lastAppend := none }

def commit (n : ArchivingNode) (chain : Blockchain) : ArchivingNode :=
  { n with store := some (StateSnapshot.fromChain chain), chain := some chain }

def stop (n : ArchivingNode) : ArchivingNode := { n with chain := none }

/-- What a start reads that has no committed state. -/
def archiveOnly (genesis : Blockchain) (n : ArchivingNode) : Except String Blockchain :=
  (n.archive.disk none).restore genesis

/-- The genesis block is archived, too, when there is nothing else. -/
def appendGenesis (genesis : Blockchain) (n : ArchivingNode) : Except String ArchivingNode :=
  if n.archive.loadAllBlocks = [] then do
    let archive ← n.archive.appendFinalized genesis.tip genesis
    pure { n with archive, archived := genesis, lastAppend := none }
  else .ok n

def start (genesis : Blockchain) (n : ArchivingNode) : Except String ArchivingNode := do
  let chain ← (n.archive.disk n.store).restore genesis
  match n.store, n.archive.loadLatestSnapshot with
  | none, none => do
      let n ← n.appendGenesis genesis
      pure (n.commit chain)
  | _, _ => pure { n with chain := some chain }

def startCut (genesis : Blockchain) (n : ArchivingNode) : Except String ArchivingNode := do
  let _ ← (n.archive.disk n.store).restore genesis
  match n.store, n.archive.loadLatestSnapshot with
  | none, none => do
      let n ← n.appendGenesis genesis
      pure n.stop
  | _, _ => pure n.stop

/-- The consensus has applied the block; the archive gets it with the chain before it. -/
def append (n : ArchivingNode) (block : Block) : Except String (ArchivingNode × Blockchain) := do
  let before ← okOr n.chain "RPC 상태가 없습니다."
  let after ← before.applyBlock block
  let archive ← n.archive.appendFinalized block before
  pure ({ n with archive, archived := after, lastAppend := some (before, block) }, after)

def installCertifiedSnapshot (validators : List Validator) (n : ArchivingNode)
    (snapshot : StateSnapshot) (certificate : SnapshotCertificate) :
    Except String ArchivingNode := do
  let chain ← okOr n.chain "RPC 상태가 없습니다."
  certificate.verifySnapshot snapshot validators
  reject (snapshot.chainId ≠ chain.chainId ∨ snapshot.genesisCommitment ≠ chain.genesisCommitment)
    "다른 체인의 snapshot을 RPC 상태에 설치할 수 없습니다."
  let restored ← Blockchain.fromSnapshotWithStaking snapshot
  reject (Blockchain.stateHash restored.toLedger ≠ snapshot.stateHash)
    "snapshot RPC 복원 상태 루트가 인증 값과 다릅니다."
  pure (n.commit restored)

def step (genesis : Blockchain) (validators : List Validator) (n : ArchivingNode) :
    Event → Except String ArchivingNode
  | .start => n.start genesis
  | .startCut => n.startCut genesis
  | .installFinalized block => do
      let (n, after) ← n.append block
      pure (n.commit after)
  | .installFinalizedCut block => do
      let (n, _) ← n.append block
      pure n.stop
  | .installCertifiedSnapshot snapshot certificate =>
      n.installCertifiedSnapshot validators snapshot certificate
  | .stop => .ok n.stop

def run (genesis : Blockchain) (validators : List Validator) (n : ArchivingNode)
    (events : List Event) : Except String ArchivingNode :=
  events.foldlM (step genesis validators) n

theorem run_cons {genesis : Blockchain} {validators : List Validator} {n n' : ArchivingNode}
    {e : Event} {rest : List Event} : n.run genesis validators (e :: rest) = .ok n' ↔
      ∃ n₁, n.step genesis validators e = .ok n₁ ∧ n₁.run genesis validators rest = .ok n' := by
  rw [run, List.foldlM_cons, bind_eq_ok]
  rfl

/-- An append that a start can follow: it opens a new file and its checkpoint becomes the last
one; or the chain is the one the archive ends with; or there is no checkpoint and the append
repeats the last one. -/
def Follows (n : ArchivingNode) (before : Blockchain) (block : Block) : Prop :=
  if n.archive.RollsOver block then
    ∀ name ∈ n.archive.checkpoints.keys,
      name ≤ checkpointName (n.archive.closingPeriod block) before.tipHeight
  else
    n.archived.SameState before ∨ n.archive.checkpoints.keys = [] ∧
      ∃ earlier, n.lastAppend = some (earlier, block) ∧ earlier.SameState before

def Orderly (n : ArchivingNode) : Event → Prop
  | .installFinalized block => ∀ before, n.chain = some before → n.Follows before block
  | .installFinalizedCut block => ∀ before, n.chain = some before → n.Follows before block
  | _ => True

end

end ArchivingNode

/-! ## What a start finds -/

section
variable [Crypto] {g c c' : Blockchain}

namespace Blockchain

theorem OnNetwork.applyBlocks {blocks : List Block} (h : g.OnNetwork c)
    (happly : c.applyBlocks blocks = .ok c') : g.OnNetwork c' :=
  foldlM_invariant (fun _ _ _ _ hc hblock => hc.applyBlock hblock) h happly

theorem Hashed.applyBlocks (hdigest : ∀ bytes, (Crypto.sha256 bytes).length = 32)
    {blocks : List Block} (h : c.Hashed) (happly : c.applyBlocks blocks = .ok c') : c'.Hashed :=
  foldlM_invariant (fun _ _ _ _ _ hblock => hashed_of_applyBlock hdigest hblock) h happly

omit [Crypto] in
theorem hashed_fromSnapshot {s : StateSnapshot} (h : fromSnapshotWithStaking s = .ok c) :
    c.Hashed ∧ c.chainId = s.chainId ∧ c.genesisCommitment = s.genesisCommitment := by
  rw [fromSnapshotWithStaking, check_bind_eq_ok, check_bind_eq_ok, reject_eq_ok, not_not] at h
  obtain ⟨hsize, -, h⟩ := h
  cases h
  exact ⟨⟨trimHexMarkers_trimHexMarkers _, hsize⟩, rfl, rfl⟩

end Blockchain

namespace Disk

theorem restoreState_spec {s : StateSnapshot} {wrongChain wrongGenesis wrongRoot : String}
    (h : restoreState g s wrongChain wrongGenesis wrongRoot = .ok c) :
    g.OnNetwork c ∧ c.Hashed := by
  simp only [restoreState, check_bind_eq_ok, reject_eq_ok, not_not] at h
  simp only [bind_eq_ok, reject_eq_ok, pure_eq_ok] at h
  obtain ⟨hchain, hgenesis, r, hr, -, -, rfl⟩ := h
  obtain ⟨hhash, hid, hcommitment⟩ := Blockchain.hashed_fromSnapshot hr
  exact ⟨⟨hid.trans hchain, hcommitment.trans hgenesis⟩, hhash⟩

/-- Whatever a start restores is a chain of the network. -/
theorem restore_spec (hdigest : ∀ bytes, (Crypto.sha256 bytes).length = 32) (hg : g.IsGenesis)
    {d : Disk} (h : d.restore g = .ok c) : g.OnNetwork c ∧ c.Hashed := by
  have hreach : g.Reachable := ⟨g, [], hg, rfl⟩
  unfold restore at h
  split at h
  · exact restoreState_spec h
  · rw [bind_eq_ok] at h
    obtain ⟨r, hr, hblocks⟩ := h
    obtain ⟨hnetwork, hhash⟩ := restoreState_spec hr
    exact ⟨hnetwork.applyBlocks hblocks, hhash.applyBlocks hdigest hblocks⟩
  · exact ⟨Blockchain.OnNetwork.applyBlocks ⟨rfl, rfl⟩ h,
      (hreach.hashed hdigest).applyBlocks hdigest h⟩

end Disk

/-! ## Blocks without a checkpoint -/

namespace ArchiveStore

variable {a a' : ArchiveStore} {block : Block} {blocks : List Block}

omit [Crypto] in
theorem loadAllBlocks_of_active (hbackups : a.backups.entries = []) :
    a.loadAllBlocks = dedupByKey Block.height (sortByKey Block.height a.loadActiveBlocks) := by
  have hnone : a.readBackupBlocks = [] := by
    rw [readBackupBlocks, hbackups]
    rfl
  rw [loadAllBlocks, hnone, List.nil_append]

omit [Crypto] in
theorem dedup_sort_ne_nil (h : blocks ≠ []) :
    dedupByKey Block.height (sortByKey Block.height blocks) ≠ [] := by
  intro hnil
  rw [dedupByKey, List.destutter_eq_nil] at hnil
  exact h (List.perm_nil.1 (hnil ▸ (sortByKey_perm Block.height blocks).symm))

omit [Crypto] in
/-- A higher block is the last one that is read. -/
theorem dedup_sort_concat_new (h : ∀ b ∈ blocks, b.height < block.height) :
    dedupByKey Block.height (sortByKey Block.height (blocks ++ [block])) =
      dedupByKey Block.height (sortByKey Block.height blocks) ++ [block] := by
  rw [sortByKey_concat fun b hb => (h b hb).le, dedupByKey_concat_new]
  intro b hb
  exact (h b ((mem_sortByKey Block.height).1 hb)).ne

omit [Crypto] in
/-- A block that is there, and the highest, is read once. -/
theorem dedup_sort_concat_known (hmem : block ∈ blocks)
    (h : ∀ b ∈ blocks, b.height ≤ block.height) :
    dedupByKey Block.height (sortByKey Block.height (blocks ++ [block])) =
      dedupByKey Block.height (sortByKey Block.height blocks) := by
  have hsorted := pairwise_sortByKey Block.height blocks
  have hmem' := (mem_sortByKey Block.height).2 hmem
  obtain ⟨last, hlast⟩ := Option.isSome_iff_exists.1
    (List.getLast?_isSome.2 (List.ne_nil_of_mem hmem'))
  have hle : last.height ≤ block.height :=
    h last ((mem_sortByKey Block.height).1 (List.mem_of_getLast? hlast))
  have hge : block.height ≤ last.height := by
    obtain ⟨front, hfront⟩ := List.getLast?_eq_some_iff.1 hlast
    rw [hfront] at hsorted hmem'
    rcases List.mem_append.1 hmem' with hold | hold
    · exact (List.pairwise_append.1 hsorted).2.2 block hold last (by simp)
    · exact (congrArg Block.height (List.mem_singleton.1 hold)).le
  rw [sortByKey_concat h, dedupByKey_concat_known hlast (Nat.le_antisymm hle hge)]

omit [Crypto] in
/-- An archive of block zero has nothing to apply. -/
theorem loadAllBlocks_single (hheight : block.height = 0) (hbackups : a.backups.entries = [])
    (hactive : a.active = some [block]) :
    (a.loadAllBlocks.filter fun b => 0 < b.height) = [] := by
  rw [loadAllBlocks_of_active hbackups, loadActiveBlocks, hactive]
  change [block].filter _ = []
  rw [List.filter_singleton, hheight]
  rfl

end ArchiveStore

namespace ArchivingNode

variable {n n' : ArchivingNode} {block : Block} {validators : List Validator}

/-- Without a checkpoint the active file has all blocks, which lead from genesis to the state
archived last. -/
structure Whole (g : Blockchain) (n : ArchivingNode) : Prop where
  keys : n.archive.checkpoints.keys = []
  backups : n.archive.backups.entries = []
  active : n.archive.active ≠ some []
  below : ∀ b ∈ n.archive.loadActiveBlocks, b.height ≤ n.archived.tipHeight
  replay : ∃ r, g.applyBlocks (n.archive.loadAllBlocks.filter fun b => 0 < b.height) = .ok r ∧
    n.archived.SameState r

/-- The last checkpoint is the state of a chain that the active blocks lead to the state archived
last. -/
def Checkpointed (g : Blockchain) (n : ArchivingNode) : Prop :=
  ∃ d, g.OnNetwork d ∧ d.Hashed ∧ d.total ≤ ieumMaxSupply ∧
    n.archive.loadLatestSnapshot = some (StateSnapshot.fromChain d) ∧
    ∃ r, d.applyBlocks n.archive.loadActiveBlocks = .ok r ∧ n.archived.SameState r

/-- What the archive alone leads to is what was archived last. -/
structure Recoverable (g : Blockchain) (n : ArchivingNode) : Prop where
  chain : ∀ c, n.chain = some c → g.OnNetwork c ∧ c.Hashed
  lastAppend : ∀ before block, n.lastAppend = some (before, block) →
    before.applyBlock block = .ok n.archived ∧ block ∈ n.archive.loadActiveBlocks
  recovery : n.Whole g ∨ n.Checkpointed g

omit [Crypto] in
theorem loadLatestSnapshot_of_keys {a : ArchiveStore} (h : a.checkpoints.keys = []) :
    a.loadLatestSnapshot = none := by
  have hlast : lastName a.checkpoints.keys = none := lastName_eq_none_iff.2 h
  rw [ArchiveStore.loadLatestSnapshot, latestCheckpoint, hlast, Option.bind_none]

/-- A start with the archive alone reaches the state archived last. -/
theorem Recoverable.archiveOnly (h : n.Recoverable g) :
    ∃ r, n.archiveOnly g = .ok r ∧ n.archived.SameState r := by
  rcases h.recovery with hwhole | ⟨d, hnetwork, hhash, hcap, hlatest, r, hrun, hsame⟩
  · obtain ⟨r, hreplay, hsame⟩ := hwhole.replay
    refine ⟨r, ?_, hsame⟩
    simp only [ArchivingNode.archiveOnly, ArchiveStore.disk, Disk.restore,
      loadLatestSnapshot_of_keys hwhole.keys]
    exact hreplay
  · obtain ⟨restored, hrestored, hsame'⟩ := Blockchain.restoreState_fromChain hnetwork hhash hcap
      "체크포인트 chain ID 불일치"
      "체크포인트 Genesis hash 불일치: 다른 네트워크의 체크포인트를 사용할 수 없습니다"
      "체크포인트 상태 해시 불일치"
    obtain ⟨final, hfinal, hsame''⟩ := hsame'.applyBlocks hrun
    refine ⟨final, ?_, hsame.trans hsame''⟩
    simp only [ArchivingNode.archiveOnly, ArchiveStore.disk, Disk.restore, hlatest, bind_eq_ok]
    exact ⟨restored, hrestored, hfinal⟩

/-! ## Appends -/

/-- A block that opens a new file is behind the checkpoint that this writes. -/
theorem checkpointed_rolled {backup : String} (hnetwork : g.OnNetwork c) (hhash : c.Hashed)
    (happly : c.applyBlock block = .ok c') {name : String}
    (hnames : ∀ other ∈ n.archive.checkpoints.keys, other ≤ name) :
    Checkpointed g { n with
      archive := { n.archive with
        active := some [block]
        period := some (periodFromTimestamp block.timestamp)
        backups := n.archive.backups.insert backup n.archive.loadActiveBlocks
        checkpoints := n.archive.checkpoints.insert name (StateSnapshot.fromChain c) }
      archived := c', lastAppend := some (c, block) } := by
  refine ⟨c, hnetwork, hhash, Blockchain.total_le_of_applyBlock happly,
    latestCheckpoint_insert _ hnames, c', ?_, .refl c'⟩
  exact Blockchain.applyBlocks_cons.2 ⟨c', happly, rfl⟩

/-- A block that continues the archived state continues what a start replays. -/
theorem recovery_continued (h : n.Whole g ∨ n.Checkpointed g) (hsame : n.archived.SameState c)
    (happly : c.applyBlock block = .ok c') {n' : ArchivingNode}
    (hactive : n'.archive.active = some (n.archive.loadActiveBlocks ++ [block]))
    (hbackups : n'.archive.backups = n.archive.backups)
    (hcheckpoints : n'.archive.checkpoints = n.archive.checkpoints)
    (harchived : n'.archived = c') : n'.Whole g ∨ n'.Checkpointed g := by
  have hnext := Blockchain.tipHeight_applyBlock happly
  have hheight : block.height = c.tipHeight + 1 := (Blockchain.applyBlock_eq_ok.1 happly).1
  have hload : n'.archive.loadActiveBlocks = n.archive.loadActiveBlocks ++ [block] := by
    rw [ArchiveStore.loadActiveBlocks, hactive]
    rfl
  rcases h with hwhole | ⟨d, hnetwork, hhash, hcap, hlatest, r, hrun, hsame'⟩
  · obtain ⟨r, hreplay, hsame'⟩ := hwhole.replay
    obtain ⟨r', hr', hsame''⟩ := (hsame.symm.trans hsame').applyBlock_ok happly
    have hlower : ∀ b ∈ n.archive.loadActiveBlocks, b.height < block.height := by
      intro b hb
      have hle := hwhole.below b hb
      rw [hsame.tipHeight] at hle
      omega
    have hbackups' : n'.archive.backups.entries = [] := by rw [hbackups, hwhole.backups]
    refine .inl ⟨by rw [hcheckpoints, hwhole.keys], hbackups', by rw [hactive]; simp, ?_, r', ?_,
      harchived ▸ hsame''⟩
    · rw [hload, harchived, hnext, ← hheight]
      exact List.forall_mem_append.2 ⟨fun b hb => (hlower b hb).le, by simp⟩
    · rw [ArchiveStore.loadAllBlocks_of_active hbackups', hload,
        ArchiveStore.dedup_sort_concat_new hlower, List.filter_append,
        ← ArchiveStore.loadAllBlocks_of_active hwhole.backups]
      have hpos : ([block].filter fun b => 0 < b.height) = [block] := by
        simp [hheight]
      rw [hpos]
      exact Blockchain.applyBlocks_concat.2 ⟨r, hreplay, hr'⟩
  · obtain ⟨r', hr', hsame''⟩ := (hsame.symm.trans hsame').applyBlock_ok happly
    refine .inr ⟨d, hnetwork, hhash, hcap, ?_, r', ?_, harchived ▸ hsame''⟩
    · rw [ArchiveStore.loadLatestSnapshot, hcheckpoints]
      exact hlatest
    · rw [hload]
      exact Blockchain.applyBlocks_concat.2 ⟨r, hrun, hr'⟩

/-- Without a checkpoint the block that was appended last may be appended once more. -/
theorem Whole.repeated (h : n.Whole g) {earlier : Blockchain}
    (hlast : earlier.applyBlock block = .ok n.archived)
    (hmem : block ∈ n.archive.loadActiveBlocks) (hsame : earlier.SameState c)
    (happly : c.applyBlock block = .ok c') {n' : ArchivingNode}
    (hactive : n'.archive.active = some (n.archive.loadActiveBlocks ++ [block]))
    (hbackups : n'.archive.backups = n.archive.backups)
    (hcheckpoints : n'.archive.checkpoints = n.archive.checkpoints)
    (harchived : n'.archived = c') : n'.Whole g := by
  obtain ⟨again, hagain, hsame'⟩ := hsame.applyBlock_ok hlast
  cases hagain.symm.trans happly
  have hheight : block.height = n.archived.tipHeight := by
    rw [Blockchain.tipHeight_applyBlock hlast]
    exact (Blockchain.applyBlock_eq_ok.1 hlast).1
  have hload : n'.archive.loadActiveBlocks = n.archive.loadActiveBlocks ++ [block] := by
    rw [ArchiveStore.loadActiveBlocks, hactive]
    rfl
  have hbackups' : n'.archive.backups.entries = [] := by rw [hbackups, h.backups]
  have hbelow : ∀ b ∈ n.archive.loadActiveBlocks, b.height ≤ block.height := fun b hb =>
    (h.below b hb).trans_eq hheight.symm
  obtain ⟨r, hreplay, hsame''⟩ := h.replay
  refine ⟨by rw [hcheckpoints, h.keys], hbackups', by rw [hactive]; simp, ?_, r, ?_,
    harchived ▸ hsame'.symm.trans hsame''⟩
  · rw [hload, harchived, ← hsame'.tipHeight, ← hheight]
    exact List.forall_mem_append.2 ⟨hbelow, by simp⟩
  · rw [ArchiveStore.loadAllBlocks_of_active hbackups', hload,
      ArchiveStore.dedup_sort_concat_known hmem hbelow,
      ← ArchiveStore.loadAllBlocks_of_active h.backups]
    exact hreplay

theorem Checkpointed.keys_ne_nil (h : n.Checkpointed g) : n.archive.checkpoints.keys ≠ [] := by
  intro hkeys
  obtain ⟨d, -, -, -, hlatest, -⟩ := h
  rw [loadLatestSnapshot_of_keys hkeys] at hlatest
  cases hlatest

/-! ## Runs -/

theorem recovery_congr (h : n.Whole g ∨ n.Checkpointed g) (harchive : n'.archive = n.archive)
    (harchived : n'.archived = n.archived) : n'.Whole g ∨ n'.Checkpointed g := by
  rcases h with hwhole | hcheckpointed
  · refine .inl ⟨?_, ?_, ?_, ?_, ?_⟩ <;> rw [harchive]
    · exact hwhole.keys
    · exact hwhole.backups
    · exact hwhole.active
    · rw [harchived]
      exact hwhole.below
    · rw [harchived]
      exact hwhole.replay
  · refine .inr ?_
    rw [Checkpointed, harchive, harchived]
    exact hcheckpointed

theorem Recoverable.commit (h : n.Recoverable g) (hnetwork : g.OnNetwork c) (hhash : c.Hashed) :
    (n.commit c).Recoverable g := by
  refine ⟨fun c' hc' => ?_, h.lastAppend, recovery_congr h.recovery rfl rfl⟩
  cases hc'
  exact ⟨hnetwork, hhash⟩

theorem Recoverable.stop (h : n.Recoverable g) : n.stop.Recoverable g :=
  ⟨nofun, h.lastAppend, recovery_congr h.recovery rfl rfl⟩

/-- An append that a start can follow. -/
theorem Recoverable.append (hdigest : ∀ bytes, (Crypto.sha256 bytes).length = 32)
    (h : n.Recoverable g) (hfollows : ∀ before, n.chain = some before → n.Follows before block)
    {after : Blockchain} (happend : n.append block = .ok (n', after)) :
    n'.Recoverable g ∧ g.OnNetwork after ∧ after.Hashed := by
  simp only [ArchivingNode.append, bind_eq_ok, okOr_eq_ok, pure_eq_ok, Prod.mk.injEq] at happend
  obtain ⟨before, hbefore, after, happly, archive, harchive, rfl, rfl⟩ := happend
  obtain ⟨hnetwork, hhash⟩ := h.chain before hbefore
  have hfollows' := hfollows before hbefore
  have hlast : ∀ earlier b, some (before, block) = some (earlier, b) →
      earlier.applyBlock b = .ok after ∧ b = block := by
    intro earlier b heq
    obtain ⟨rfl, rfl⟩ := Prod.mk.inj (Option.some.inj heq)
    exact ⟨happly, rfl⟩
  refine ⟨⟨h.chain, fun earlier b heq => ⟨(hlast earlier b heq).1, ?_⟩, ?_⟩,
    hnetwork.applyBlock happly, Blockchain.hashed_of_applyBlock hdigest happly⟩
  · rw [(hlast earlier b heq).2]
    rcases ArchiveStore.appendFinalized_eq_ok harchive with ⟨-, rfl⟩ | ⟨-, backup, -, rfl⟩
    · exact List.mem_append_right _ (List.mem_singleton_self _)
    · exact List.mem_singleton_self _
  · unfold Follows at hfollows'
    rcases ArchiveStore.appendFinalized_eq_ok harchive with ⟨hrolls, rfl⟩ | ⟨hrolls, backup, -, rfl⟩
    · rw [if_neg hrolls] at hfollows'
      rcases hfollows' with hsame | ⟨hkeys, earlier, hlastAppend, hsame⟩
      · exact recovery_continued h.recovery hsame happly rfl rfl rfl rfl
      · obtain ⟨hearlier, hmem⟩ := h.lastAppend earlier block hlastAppend
        rcases h.recovery with hwhole | hcheckpointed
        · exact .inl (hwhole.repeated hearlier hmem hsame happly rfl rfl rfl rfl)
        · exact absurd hkeys hcheckpointed.keys_ne_nil
    · rw [if_pos hrolls] at hfollows'
      exact recovery_congr (.inr (checkpointed_rolled hnetwork hhash happly hfollows')) rfl rfl

/-- The genesis block goes into an archive that has nothing. -/
theorem Recoverable.appendGenesis (hg : g.IsGenesis) (h : n.Recoverable g)
    (hnone : n.archive.loadLatestSnapshot = none) (happend : n.appendGenesis g = .ok n') :
    n'.Recoverable g := by
  unfold ArchivingNode.appendGenesis at happend
  split_ifs at happend with hempty
  · rw [bind_eq_ok] at happend
    obtain ⟨archive, harchive, happend⟩ := happend
    cases happend
    obtain ⟨timestamp, hblocks⟩ := hg.blocks
    have htip : g.tip.height = 0 := by
      simp only [Blockchain.tip, hblocks, List.getLast_singleton]
      rfl
    rcases h.recovery with hwhole | ⟨d, -, -, -, hlatest, -⟩
    · have hactive : n.archive.loadActiveBlocks = [] := by
        by_contra hne
        rw [ArchiveStore.loadAllBlocks_of_active hwhole.backups] at hempty
        exact ArchiveStore.dedup_sort_ne_nil hne hempty
      have hmissing : n.archive.active = none := by
        cases hfile : n.archive.active with
        | none => rfl
        | some blocks =>
            rw [ArchiveStore.loadActiveBlocks, hfile, Option.getD_some] at hactive
            exact absurd (hactive ▸ hfile) hwhole.active
      rcases ArchiveStore.appendFinalized_eq_ok harchive with ⟨-, hfirst⟩ | ⟨⟨-, hsome⟩, -⟩
      · have hfile : archive.active = some [g.tip] := by rw [hfirst, hactive]; rfl
        have hkeys : archive.checkpoints.keys = [] := by rw [hfirst, hwhole.keys]
        have hbackups : archive.backups.entries = [] := by rw [hfirst, hwhole.backups]
        refine ⟨h.chain, fun _ _ hlast => absurd hlast (Option.some_ne_none _).symm, .inl ⟨hkeys, hbackups, by rw [hfile]; simp, ?_, g, ?_, .refl g⟩⟩
        · rw [ArchiveStore.loadActiveBlocks, hfile, Option.getD_some, List.forall_mem_singleton]
          exact le_rfl
        · exact congrArg g.applyBlocks (ArchiveStore.loadAllBlocks_single htip hbackups hfile)
      · rw [hmissing] at hsome
        cases hsome
    · rw [hnone] at hlatest
      cases hlatest
  · cases happend
    exact h

/-- What both kinds of starts have in common. -/
theorem Recoverable.started (hdigest : ∀ bytes, (Crypto.sha256 bytes).length = 32)
    (hg : g.IsGenesis) (h : n.Recoverable g)
    (hrestore : (n.archive.disk n.store).restore g = .ok c) :
    g.OnNetwork c ∧ c.Hashed ∧ ({ n with chain := some c } : ArchivingNode).Recoverable g := by
  obtain ⟨hnetwork, hhash⟩ := Disk.restore_spec hdigest hg hrestore
  refine ⟨hnetwork, hhash, fun c' hc' => ?_, h.lastAppend, recovery_congr h.recovery rfl rfl⟩
  cases hc'
  exact ⟨hnetwork, hhash⟩

theorem Recoverable.start (hdigest : ∀ bytes, (Crypto.sha256 bytes).length = 32)
    (hg : g.IsGenesis) (h : n.Recoverable g) (hstart : n.start g = .ok n') :
    n'.Recoverable g := by
  rw [ArchivingNode.start, bind_eq_ok] at hstart
  obtain ⟨chain, hrestore, hstart⟩ := hstart
  obtain ⟨hnetwork, hhash, hstarted⟩ := h.started hdigest hg hrestore
  split at hstart
  · rename_i hlatest
    rw [bind_eq_ok] at hstart
    obtain ⟨n₁, hgenesis, hstart⟩ := hstart
    cases hstart
    exact (h.appendGenesis hg hlatest hgenesis).commit hnetwork hhash
  · cases hstart
    exact hstarted

theorem Recoverable.startCut (hg : g.IsGenesis) (h : n.Recoverable g)
    (hstart : n.startCut g = .ok n') : n'.Recoverable g := by
  rw [ArchivingNode.startCut, bind_eq_ok] at hstart
  obtain ⟨chain, -, hstart⟩ := hstart
  split at hstart
  · rename_i hlatest
    rw [bind_eq_ok] at hstart
    obtain ⟨n₁, hgenesis, hstart⟩ := hstart
    cases hstart
    exact (h.appendGenesis hg hlatest hgenesis).stop
  · cases hstart
    exact h.stop

/-- A certified snapshot replaces the state and leaves the archive. -/
theorem Recoverable.installCertifiedSnapshot (h : n.Recoverable g) {snapshot : StateSnapshot}
    {certificate : SnapshotCertificate}
    (hinstall : n.installCertifiedSnapshot validators snapshot certificate = .ok n') :
    n'.Recoverable g := by
  rw [ArchivingNode.installCertifiedSnapshot, bind_eq_ok] at hinstall
  obtain ⟨chain, hchain, hinstall⟩ := hinstall
  obtain ⟨hnetwork, -⟩ := h.chain chain (okOr_eq_ok.1 hchain)
  rw [check_bind_eq_ok, check_bind_eq_ok, reject_eq_ok, not_or, not_not, not_not,
    bind_eq_ok] at hinstall
  obtain ⟨-, ⟨hid, hcommitment⟩, restored, hrestored, hinstall⟩ := hinstall
  rw [check_bind_eq_ok] at hinstall
  obtain ⟨-, hinstall⟩ := hinstall
  cases hinstall
  obtain ⟨hhash, hid', hcommitment'⟩ := Blockchain.hashed_fromSnapshot hrestored
  exact h.commit ⟨hid'.trans (hid.trans hnetwork.chainId),
    hcommitment'.trans (hcommitment.trans hnetwork.genesisCommitment)⟩ hhash

theorem Recoverable.step (hdigest : ∀ bytes, (Crypto.sha256 bytes).length = 32)
    (hg : g.IsGenesis) (h : n.Recoverable g) {e : Event} (horderly : n.Orderly e)
    (hstep : n.step g validators e = .ok n') : n'.Recoverable g := by
  cases e with
  | start => exact h.start hdigest hg hstep
  | startCut => exact h.startCut hg hstep
  | installFinalized block =>
      rw [ArchivingNode.step, bind_eq_ok] at hstep
      obtain ⟨⟨n₁, after⟩, happend, hstep⟩ := hstep
      cases hstep
      obtain ⟨h₁, hnetwork, hhash⟩ := h.append hdigest horderly happend
      exact h₁.commit hnetwork hhash
  | installFinalizedCut block =>
      rw [ArchivingNode.step, bind_eq_ok] at hstep
      obtain ⟨⟨n₁, after⟩, happend, hstep⟩ := hstep
      cases hstep
      exact (h.append hdigest horderly happend).1.stop
  | installCertifiedSnapshot snapshot certificate => exact h.installCertifiedSnapshot hstep
  | stop =>
      cases hstep
      exact h.stop

theorem Recoverable.run (hdigest : ∀ bytes, (Crypto.sha256 bytes).length = 32)
    (hg : g.IsGenesis) {events : List Event} (h : n.Recoverable g)
    (horderly : Along (ArchivingNode.step g validators) Orderly n events)
    (hrun : n.run g validators events = .ok n') : n'.Recoverable g := by
  induction events generalizing n with
  | nil =>
      cases hrun
      exact h
  | cons e rest ih =>
      obtain ⟨n₁, hstep, hrest⟩ := run_cons.1 hrun
      exact ih (h.step hdigest hg horderly.1 hstep) (horderly.2 n₁ hstep) hrest

theorem recoverable_fresh {maxActiveBytes : ℕ} {archive : ArchiveStore}
    (hnew : ArchiveStore.new maxActiveBytes = .ok archive) : (fresh g archive).Recoverable g := by
  rw [ArchiveStore.new, check_bind_eq_ok] at hnew
  obtain ⟨-, hnew⟩ := hnew
  cases hnew
  refine ⟨?_, ?_, .inl ⟨rfl, rfl, ?_, List.forall_mem_nil _, g, rfl, .refl g⟩⟩
  · intro c hchain
    cases hchain
  · intro before block hlast
    cases hlast
  · intro hactive
    cases hactive

/-- In a run in which each append is one that a start can follow, a start with the archive alone
applies every block and reaches the state archived last. -/
theorem recovery_survives_crashes (hdigest : ∀ bytes, (Crypto.sha256 bytes).length = 32)
    (hg : g.IsGenesis) {maxActiveBytes : ℕ} {archive : ArchiveStore}
    (hnew : ArchiveStore.new maxActiveBytes = .ok archive) {events : List Event}
    (horderly : Along (step g validators) Orderly (fresh g archive) events)
    (hrun : (fresh g archive).run g validators events = .ok n) :
    ∃ r, n.archiveOnly g = .ok r ∧ n.archived.SameState r :=
  ((recoverable_fresh hnew).run hdigest hg horderly hrun).archiveOnly

end ArchivingNode

end

/-! ## The first block of February, twice -/

namespace Twice

open NextMonth
open ArchivingNode (fresh appendGenesis run_cons)

local instance twiceCrypto : Crypto := nextMonthCrypto

/-- The archive with the genesis block. -/
def january : ArchiveStore :=
  { archive with active := some [chain.tip], period := some (periodFromTimestamp 0) }

theorem append_genesis : archive.appendFinalized chain.tip chain = .ok january := by
  obtain ⟨a, ha⟩ := ArchiveStore.exists_appendFinalized (a := archive) chain length_line.1
    fun h => absurd h.2 Bool.false_ne_true
  rcases ArchiveStore.appendFinalized_eq_ok ha with ⟨-, rfl⟩ | ⟨⟨-, hactive⟩, -⟩
  · exact ha
  · cases hactive

theorem rollsOver_february : january.RollsOver february := ⟨.inl ⟨_, rfl, period_ne⟩, rfl⟩

/-- The first block of February closes the file of January. -/
theorem exists_append_february : ∃ a, january.appendFinalized february chain = .ok a ∧
    a.active = some [february] ∧ a.period = some (periodFromTimestamp 2678400) ∧
    a.maxActiveBytes = maxActiveBlockBytes ∧
    a.loadLatestSnapshot = some (StateSnapshot.fromChain chain) := by
  have hname : ∃ backup, uniqueBackupPath archive.backups (periodFromTimestamp 0) = some backup :=
    ⟨_, if_neg (AList.notMem_empty _)⟩
  obtain ⟨a, ha⟩ := ArchiveStore.exists_appendFinalized (a := january) chain length_line.2
    fun _ => hname
  refine ⟨a, ha, ?_⟩
  rcases ArchiveStore.appendFinalized_eq_ok ha with ⟨hrolls, -⟩ | ⟨-, backup, -, rfl⟩
  · exact absurd rollsOver_february hrolls
  · exact ⟨rfl, rfl, rfl, latestCheckpoint_insert _ nofun⟩

theorem isGenesis_chain : chain.IsGenesis := Blockchain.isGenesis_withChainId _ _

theorem restore_fresh : ((fresh chain archive).archive.disk none).restore chain = .ok chain := rfl

/-- After the first start. -/
def started : ArchivingNode :=
  { archive := january, store := some (StateSnapshot.fromChain chain), chain := some chain
    archived := chain, lastAppend := none }

/-- The first start writes the genesis block and the state. -/
theorem start_fresh : (fresh chain archive).start chain = .ok started := by
  have hempty : (fresh chain archive).archive.loadAllBlocks = [] := rfl
  have hgenesis : (fresh chain archive).appendGenesis chain =
      .ok { fresh chain archive with archive := january } := by
    rw [appendGenesis, if_pos hempty, bind_eq_ok]
    exact ⟨january, append_genesis, rfl⟩
  rw [ArchivingNode.start, bind_eq_ok]
  refine ⟨chain, restore_fresh, ?_⟩
  change ((fresh chain archive).appendGenesis chain >>= _) = _
  rw [hgenesis]
  rfl

theorem append_of {n : ArchivingNode} {before after : Blockchain} {block : Block} {a : ArchiveStore}
    (hbefore : n.chain = some before) (hafter : before.applyBlock block = .ok after)
    (happend : n.archive.appendFinalized block before = .ok a) :
    n.append block = .ok ({ n with
      archive := a, archived := after, lastAppend := some (before, block) }, after) := by
  simp only [ArchivingNode.append, bind_eq_ok, okOr_eq_ok, pure_eq_ok]
  exact ⟨before, hbefore, after, hafter, a, happend, rfl⟩

/-- A node that has crashed between an append and the commit. -/
def crashed (a : ArchiveStore) (c : Blockchain) (block : Block) : ArchivingNode :=
  ⟨a, some (StateSnapshot.fromChain chain), none, c, some (chain, block)⟩

def restarted (a : ArchiveStore) (c : Blockchain) (block : Block) (r : Blockchain) : ArchivingNode :=
  ⟨a, some (StateSnapshot.fromChain chain), some r, c, some (chain, block)⟩

/-- It starts with the state before the append. -/
theorem restart_crashed : ∃ r, chain.SameState r ∧ ∀ a c block,
    (crashed a c block).start chain = .ok (restarted a c block r) := by
  have hdigest : ∀ bytes, (Crypto.sha256 bytes).length = 32 := fun _ => List.length_replicate
  have hhash : chain.Hashed := Blockchain.Reachable.hashed hdigest ⟨chain, [], isGenesis_chain, rfl⟩
  obtain ⟨c, happly⟩ := applyBlock_february
  obtain ⟨r, hr, hsame⟩ := Blockchain.restoreState_fromChain (g := chain) ⟨rfl, rfl⟩ hhash
    (Blockchain.total_le_of_applyBlock happly) "embedded DB chain ID 불일치"
    "embedded DB Genesis hash 불일치: 기존 원장을 백업한 뒤 새 메인넷 원장으로 시작하세요"
    "embedded DB state root 불일치"
  refine ⟨r, hsame, fun a c block => ?_⟩
  rw [ArchivingNode.start, bind_eq_ok]
  exact ⟨r, hr, rfl⟩

/-- In one month two short blocks stay in one file. -/
theorem not_rollsOver_again {a : ArchiveStore} (hactive : a.active = some [february])
    (hperiod : a.period = some (periodFromTimestamp 2678400))
    (hmax : a.maxActiveBytes = maxActiveBlockBytes) : ¬a.RollsOver february := by
  rintro ⟨⟨current, hcurrent, hne⟩ | hfull, -⟩
  · rw [hperiod] at hcurrent
    exact hne (Option.mem_some_iff.1 hcurrent).symm
  · have hsize := Block.length_line_le (b := february) rfl rfl
    have hhash : february.hash.toList.length = 64 := length_hash _
    have hprevious : february.previousHash.toList.length = 64 := length_hash _
    have hsmall : february.producer.toList.length + (decimal february.height).toList.length +
        (decimal february.timestamp).toList.length ≤ 50 := by decide
    have hname : (periodFromTimestamp 2678400).utf8ByteSize ≤ 50 := by decide
    have hbytes := ArchiveStore.activeBytes_singleton hactive hperiod
    rw [hmax, hbytes] at hfull
    unfold maxActiveBlockBytes at hfull
    omega

section
variable {n n₁ n₂ n₃ n₄ : ArchivingNode} {block : Block} {before after : Blockchain}

/-- The node takes a block, crashes, starts and takes the block again. -/
theorem run_repeat (hstart : n.start chain = .ok n₁)
    (hcut : n₁.step chain [] (.installFinalizedCut block) = .ok n₂)
    (hrestart : n₂.start chain = .ok n₃)
    (hrepeat : n₃.step chain [] (.installFinalized block) = .ok n₄) :
    n.run chain [] [.start, .installFinalizedCut block, .start, .installFinalized block] =
      .ok n₄ :=
  run_cons.2 ⟨_, hstart, run_cons.2 ⟨_, hcut, run_cons.2 ⟨_, hrestart,
    run_cons.2 ⟨_, hrepeat, rfl⟩⟩⟩⟩

/-- The run is orderly as long as the block stays in one file. -/
theorem orderly_repeat (hstart : n.start chain = .ok n₁)
    (hcut : n₁.step chain [] (.installFinalizedCut block) = .ok n₂)
    (hrestart : n₂.start chain = .ok n₃)
    (hbefore : n₁.chain = some before) (harchived : n₁.archived.SameState before)
    (hstays : ¬n₁.archive.RollsOver block) (hafter : n₃.chain = some after)
    (hlast : n₃.lastAppend = some (before, block)) (hsame : before.SameState after)
    (hkeys : n₃.archive.checkpoints.keys = []) (hstays' : ¬n₃.archive.RollsOver block) :
    Along (ArchivingNode.step chain []) ArchivingNode.Orderly n
      [.start, .installFinalizedCut block, .start, .installFinalized block] := by
  refine ⟨trivial, fun m₁ hm₁ => ?_⟩
  cases hstart.symm.trans hm₁
  refine ⟨fun c hc => ?_, fun m₂ hm₂ => ⟨trivial, fun m₃ hm₃ => ⟨fun c hc => ?_, ?_⟩⟩⟩
  · cases hbefore.symm.trans hc
    rw [ArchivingNode.Follows, if_neg hstays]
    exact .inl harchived
  · cases hcut.symm.trans hm₂
    cases hrestart.symm.trans hm₃
    cases hafter.symm.trans hc
    rw [ArchivingNode.Follows, if_neg hstays']
    exact .inr ⟨hkeys, before, hlast, hsame⟩
  · exact fun _ _ => trivial

end

/-- A crash after the append of the block that closes the month: the node takes the block again,
and the file behind the checkpoint has it twice. -/
theorem recovery_finds_block_twice : ∃ n, (fresh chain archive).run chain []
      [.start, .installFinalizedCut february, .start, .installFinalized february] = .ok n ∧
    ∀ r, n.archiveOnly chain ≠ .ok r := by
  obtain ⟨c, happly⟩ := applyBlock_february
  obtain ⟨a₂, hfebruary, hactive, hperiod, hmax, hlatest⟩ := exists_append_february
  obtain ⟨r, hsame, hrestart⟩ := restart_crashed
  obtain ⟨c', happly', -⟩ := hsame.applyBlock_ok happly
  have hrolls := not_rollsOver_again hactive hperiod hmax
  obtain ⟨a₃, hagain⟩ := ArchiveStore.exists_appendFinalized (a := a₂) r
    (by rw [hmax]; exact length_line.2) fun h => absurd h hrolls
  have hcut := append_of (n := started) rfl happly hfebruary
  have hrepeat := append_of (n := restarted a₂ c february r) rfl happly' hagain
  refine ⟨_, run_repeat start_fresh (bind_eq_ok.2 ⟨_, hcut, rfl⟩) (hrestart a₂ c february)
    (bind_eq_ok.2 ⟨_, hrepeat, rfl⟩), ?_⟩
  intro final hfinal
  rcases ArchiveStore.appendFinalized_eq_ok hagain with ⟨-, ha₃⟩ | ⟨h, -⟩
  · have hlatest' : a₃.loadLatestSnapshot = some (StateSnapshot.fromChain chain) := by
      rw [ha₃]
      exact hlatest
    have hactive' : a₃.loadActiveBlocks = [february, february] := by
      rw [ha₃, ArchiveStore.loadActiveBlocks, ArchiveStore.loadActiveBlocks, hactive]
      rfl
    have hblocks : ∃ d : Blockchain, d.applyBlocks a₃.loadActiveBlocks = .ok final := by
      have hread : (a₃.disk none).restore chain = .ok final := hfinal
      simp only [ArchiveStore.disk, Disk.restore, hlatest', bind_eq_ok] at hread
      obtain ⟨d, -, hd⟩ := hread
      exact ⟨d, hd⟩
    obtain ⟨d, hd⟩ := hblocks
    rw [hactive'] at hd
    obtain ⟨d₁, hfirst, hsecond⟩ := Blockchain.applyBlocks_cons.1 hd
    obtain ⟨d₂, hsecond, -⟩ := Blockchain.applyBlocks_cons.1 hsecond
    have hheight := (Blockchain.applyBlock_eq_ok.1 hfirst).1
    have hheight' := (Blockchain.applyBlock_eq_ok.1 hsecond).1
    have hnext := Blockchain.tipHeight_applyBlock hfirst
    omega
  · exact absurd h hrolls

/-! ## A block of January, twice -/

def midJanuary : Block := Block.new 1 chain.tipHash 1000 "p" []

/-- The archive of January to which a block was added a number of times. -/
def januaryWith (n : ℕ) : ArchiveStore :=
  { january with active := some (chain.tip :: List.replicate n midJanuary) }

theorem not_rollsOver_january : ∀ n ∈ [0, 1], ¬(januaryWith n).RollsOver midJanuary ∧
    (line Block.json midJanuary).length ≤ (januaryWith n).maxActiveBytes := by
  decide +kernel

theorem append_january {n : ℕ} (hn : n ∈ [0, 1]) (before : Blockchain) :
    (januaryWith n).appendFinalized midJanuary before = .ok (januaryWith (n + 1)) := by
  obtain ⟨hrolls, hsize⟩ := not_rollsOver_january n hn
  obtain ⟨a, ha⟩ := ArchiveStore.exists_appendFinalized before hsize fun h => absurd h hrolls
  rcases ArchiveStore.appendFinalized_eq_ok ha with ⟨-, rfl⟩ | ⟨h, -⟩
  · have hperiod : periodFromTimestamp midJanuary.timestamp = periodFromTimestamp 0 := by decide
    have hactive : (januaryWith n).loadActiveBlocks ++ [midJanuary] =
        chain.tip :: List.replicate (n + 1) midJanuary := by
      rw [List.replicate_succ']
      rfl
    rw [ha, hactive, hperiod]
    rfl
  · exact absurd h hrolls

/-- After a block of January the archive has the block twice as well, and what it leads to is the
state after the block. -/
theorem recovery_survives_crashes_january : ∃ n, (fresh chain archive).run chain []
      [.start, .installFinalizedCut midJanuary, .start, .installFinalized midJanuary] = .ok n ∧
    n.archive = januaryWith 2 ∧ ∃ r, n.archiveOnly chain = .ok r ∧ n.archived.SameState r := by
  obtain ⟨c, happly⟩ : ∃ c, chain.applyBlock midJanuary = .ok c := applyBlock_new 1000
  obtain ⟨r, hsame, hrestart⟩ := restart_crashed
  obtain ⟨c', happly', -⟩ := hsame.applyBlock_ok happly
  obtain ⟨n₂, hn₂⟩ : ∃ n₂, n₂ = crashed (januaryWith 1) c midJanuary := ⟨_, rfl⟩
  obtain ⟨n₃, hn₃⟩ : ∃ n₃, n₃ = restarted (januaryWith 1) c midJanuary r := ⟨_, rfl⟩
  have hcut : started.step chain [] (.installFinalizedCut midJanuary) = .ok n₂ := by
    have happend := append_of (n := started) rfl happly (append_january (n := 0) (by decide) chain)
    rw [hn₂]
    exact bind_eq_ok.2 ⟨_, happend, rfl⟩
  have hstart : n₂.start chain = .ok n₃ := by
    rw [hn₂, hn₃]
    exact hrestart _ _ _
  obtain ⟨n₄, hrepeat, harchive⟩ : ∃ n₄,
      n₃.step chain [] (.installFinalized midJanuary) = .ok n₄ ∧ n₄.archive = januaryWith 2 := by
    have happend := append_of (n := restarted (januaryWith 1) c midJanuary r) rfl happly'
      (append_january (n := 1) (by decide) r)
    rw [hn₃]
    exact ⟨_, bind_eq_ok.2 ⟨_, happend, rfl⟩, rfl⟩
  have hnew : ArchiveStore.new maxActiveBlockBytes = .ok archive := rfl
  have hstays : ¬started.archive.RollsOver midJanuary := (not_rollsOver_january 0 (by decide)).1
  have hstays' : ¬n₃.archive.RollsOver midJanuary := by
    rw [hn₃]
    exact (not_rollsOver_january 1 (by decide)).1
  have hrun := run_repeat start_fresh hcut hstart hrepeat
  have horderly := orderly_repeat start_fresh hcut hstart rfl (.refl chain) hstays
    (congrArg ArchivingNode.chain hn₃) (congrArg ArchivingNode.lastAppend hn₃) hsame
    (congrArg (·.archive.checkpoints.keys) hn₃) hstays'
  exact ⟨n₄, hrun, harchive, ArchivingNode.recovery_survives_crashes
    (fun _ => List.length_replicate) isGenesis_chain hnew horderly hrun⟩

end Twice

end IeumChain
