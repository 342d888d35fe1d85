import IeumChain.Archive

/-!
# The archive keeps the whole history

Every block of a chain is appended as it is applied. Then the backups and the active file
hold each block once, and the checkpoint with the last name is the state that the active
blocks continue to the present one.
-/
namespace IeumChain

open ByteCodec Text Outcome MachineWords FiniteMap Journal PaddedNames KeyedLists

section
variable [Crypto]

/-! ## Restoring the snapshot of a chain -/

namespace Blockchain

omit [Crypto] in
theorem SameState.refl (c : Blockchain) : SameState c c := ⟨rfl, rfl, rfl, rfl⟩

omit [Crypto] in
theorem SameState.symm {c c' : Blockchain} (h : SameState c c') : SameState c' c :=
  ⟨h.toLedger.symm, h.chainId.symm, h.tipHeight.symm, h.tipHash.symm⟩

omit [Crypto] in
theorem SameState.trans {c c' c'' : Blockchain} (h : SameState c c') (h' : SameState c' c'') :
    SameState c c'' :=
  ⟨h.toLedger.trans h'.toLedger, h.chainId.trans h'.chainId, h.tipHeight.trans h'.tipHeight,
    h.tipHash.trans h'.tipHash⟩

theorem SameState.applyBlock_ok {c c' d : Blockchain} {block : Block} (h : SameState c c')
    (happly : c.applyBlock block = .ok d) :
    ∃ d', c'.applyBlock block = .ok d' ∧ SameState d d' := by
  obtain ⟨e, d', he, hd', hsame⟩ | ⟨message, herror, -⟩ := h.applyBlock block
  · cases happly.symm.trans he
    exact ⟨d', hd', hsame⟩
  · cases happly.symm.trans herror

theorem SameState.applyBlocks {c c' d : Blockchain} {blocks : List Block} (h : SameState c c')
    (happly : c.applyBlocks blocks = .ok d) :
    ∃ d', c'.applyBlocks blocks = .ok d' ∧ SameState d d' := by
  induction blocks generalizing c c' with
  | nil =>
      cases happly
      exact ⟨c', rfl, h⟩
  | cons block rest ih =>
      obtain ⟨c₁, hblock, hrest⟩ := applyBlocks_cons.1 happly
      obtain ⟨c₁', hblock', hsame⟩ := h.applyBlock_ok hblock
      obtain ⟨d', hrest', hsame'⟩ := ih hsame hrest
      exact ⟨d', applyBlocks_cons.2 ⟨c₁', hblock', hrest'⟩, hsame'⟩

theorem applyBlocks_concat {c c' : Blockchain} {blocks : List Block} {block : Block} :
    c.applyBlocks (blocks ++ [block]) = .ok c' ↔
      ∃ c₁, c.applyBlocks blocks = .ok c₁ ∧ c₁.applyBlock block = .ok c' := by
  simp only [Blockchain.applyBlocks, List.foldlM_append, bind_eq_ok, List.foldlM_cons,
    List.foldlM_nil, pure_eq_ok, exists_eq_right]

theorem Reachable.applyBlock {c c' : Blockchain} {block : Block} (h : c.Reachable)
    (happly : c.applyBlock block = .ok c') : c'.Reachable := by
  obtain ⟨g, blocks, hg, hrun⟩ := h
  exact ⟨g, blocks ++ [block], hg, applyBlocks_concat.2 ⟨c, hrun, happly⟩⟩

theorem tipHeight_applyBlocks_le {c c' : Blockchain} {blocks : List Block}
    (h : c.applyBlocks blocks = .ok c') : c.tipHeight ≤ c'.tipHeight := by
  refine foldlM_invariant (P := fun x => c.tipHeight ≤ x.tipHeight) ?_ le_rfl h
  intro x block y _ hx hxy
  have hnext := tipHeight_applyBlock hxy
  omega

/-- The chains of one network. -/
structure OnNetwork (g c : Blockchain) : Prop where
  chainId : c.chainId = g.chainId
  genesisCommitment : c.genesisCommitment = g.genesisCommitment

theorem OnNetwork.applyBlock {g c c' : Blockchain} {block : Block} (h : OnNetwork g c)
    (happly : c.applyBlock block = .ok c') : OnNetwork g c' := by
  obtain ⟨-, -, -, l, -, rfl⟩ := applyBlock_eq_ok.1 happly
  exact ⟨h.chainId, h.genesisCommitment⟩

/-- The hash of the last block can be stored and read back: it has 64 digits and no marker. -/
structure Hashed (c : Blockchain) : Prop where
  trimmed : trimHexMarkers c.tipHash = c.tipHash
  size : c.tipHash.utf8ByteSize = 64

variable (hdigest : ∀ bytes, (Crypto.sha256 bytes).length = 32)

include hdigest

theorem hashed_of_calculateHash {c : Blockchain} (h : c.tipHash = c.tip.calculateHash) :
    c.Hashed := by
  refine ⟨?_, ?_⟩
  · rw [h]
    exact trimHexMarkers_hexEncode _
  · rw [h, Block.calculateHash, sha256Hex, utf8ByteSize_hexEncode, hdigest]

theorem Reachable.hashed {c : Blockchain} (h : c.Reachable) : c.Hashed :=
  hashed_of_calculateHash hdigest h.tip_hash

theorem hashed_of_applyBlock {c c' : Blockchain} {block : Block}
    (h : c.applyBlock block = .ok c') : c'.Hashed := by
  obtain ⟨-, -, hhash, l, -, rfl⟩ := applyBlock_eq_ok.1 h
  exact hashed_of_calculateHash hdigest (by simpa only [tipHash, tip_push] using hhash)

omit hdigest in
/-- A snapshot of a chain is restored to that chain, up to its block objects. -/
theorem fromSnapshot_fromChain {c : Blockchain} (hhash : c.Hashed) (hcap : c.total ≤ ieumMaxSupply) :
    ∃ r, fromSnapshotWithStaking (StateSnapshot.fromChain c) = .ok r ∧ SameState c r := by
  have hsize : ¬(trimHexMarkers c.tipHash).utf8ByteSize ≠ 64 := by
    rw [hhash.trimmed, hhash.size]
    decide
  refine ⟨_, check_bind_eq_ok.2 ⟨reject_eq_ok.2 hsize, check_bind_eq_ok.2
    ⟨validateSupplyCap_eq_ok.2 hcap, rfl⟩⟩, ?_⟩
  exact ⟨rfl, rfl, rfl, hhash.trimmed.symm⟩

omit hdigest in
theorem restoreState_fromChain {g c : Blockchain} (hnetwork : OnNetwork g c) (hhash : c.Hashed)
    (hcap : c.total ≤ ieumMaxSupply) (wrongChain wrongGenesis wrongRoot : String) :
    ∃ r, Disk.restoreState g (StateSnapshot.fromChain c) wrongChain wrongGenesis wrongRoot = .ok r ∧
      SameState c r := by
  obtain ⟨r, hr, hsame⟩ := fromSnapshot_fromChain hhash hcap
  refine ⟨r, ?_, hsame⟩
  rw [Disk.restoreState, check_bind_eq_ok, check_bind_eq_ok, bind_eq_ok]
  refine ⟨reject_eq_ok.2 fun h => h hnetwork.chainId,
    reject_eq_ok.2 fun h => h hnetwork.genesisCommitment, r, hr, ?_⟩
  rw [check_bind_eq_ok]
  refine ⟨reject_eq_ok.2 fun h => h ?_, rfl⟩
  rw [← hsame.toLedger]
  rfl

omit hdigest in
theorem total_le_of_applyBlock {c c' : Blockchain} {block : Block}
    (h : c.applyBlock block = .ok c') : c.total ≤ ieumMaxSupply := by
  obtain ⟨-, -, -, l, hl, -⟩ := applyBlock_eq_ok.1 h
  obtain ⟨l₁, -, -, hcap⟩ := execute_eq_ok.1 hl
  have htotal := execute_total hl
  have hle := validateSupplyCap_eq_ok.1 hcap
  omega

end Blockchain

/-! ## What an append adds -/

/-- The files hold these blocks, each once. -/
structure ArchiveStore.Holds (a : ArchiveStore) (blocks : List Block) : Prop where
  perm : ((a.backups.entries.flatMap fun e => e.2) ++ a.loadActiveBlocks).Perm blocks
  names : ∀ e ∈ a.backups.entries, isBackupName e.1 = true
  increasing : blocks.Pairwise (·.height < ·.height)

namespace ArchiveStore.Holds

variable {a a' : ArchiveStore} {blocks : List Block} {block : Block} {chain : Blockchain}

omit [Crypto] in
theorem of_new {maxActiveBytes : ℕ} (h : ArchiveStore.new maxActiveBytes = .ok a) :
    a.Holds [] := by
  rw [ArchiveStore.new, check_bind_eq_ok] at h
  obtain ⟨-, h⟩ := h
  cases h
  exact ⟨List.Perm.nil, fun e he => absurd he List.not_mem_nil, List.Pairwise.nil⟩

theorem append (h : a.Holds blocks) (hheight : ∀ b ∈ blocks, b.height < block.height)
    (happend : a.appendFinalized block chain = .ok a') : a'.Holds (blocks ++ [block]) := by
  have hincreasing : (blocks ++ [block]).Pairwise (·.height < ·.height) := by
    rw [List.pairwise_append]
    refine ⟨h.increasing, List.pairwise_singleton _ _, fun b hb b' hb' => ?_⟩
    rw [List.mem_singleton.1 hb']
    exact hheight b hb
  rcases appendFinalized_eq_ok happend with ⟨-, rfl⟩ | ⟨-, backup, hbackup, rfl⟩
  · refine ⟨?_, h.names, hincreasing⟩
    show ((a.backups.entries.flatMap fun e => e.2) ++ (a.loadActiveBlocks ++ [block])).Perm _
    rw [← List.append_assoc]
    exact h.perm.append_right [block]
  · obtain ⟨hfree, hname⟩ := uniqueBackupPath_eq_some hbackup
    have hentries : (a.backups.insert backup a.loadActiveBlocks).entries =
        ⟨backup, a.loadActiveBlocks⟩ :: a.backups.entries :=
      AList.entries_insert_of_notMem hfree
    refine ⟨?_, ?_, hincreasing⟩
    · show (((a.backups.insert backup a.loadActiveBlocks).entries.flatMap fun e => e.2) ++
        [block]).Perm _
      rw [hentries, List.flatMap_cons]
      exact (List.perm_append_comm.trans h.perm).append_right [block]
    · show ∀ e ∈ (a.backups.insert backup a.loadActiveBlocks).entries, _
      rw [hentries, List.forall_mem_cons]
      exact ⟨hname, h.names⟩

omit [Crypto] in
/-- All blocks are found, in the order of their heights. -/
theorem loadAllBlocks (h : a.Holds blocks) : a.loadAllBlocks = blocks := by
  have hfilter : (a.backups.entries.filter fun e => isBackupName e.1) = a.backups.entries :=
    List.filter_eq_self.2 h.names
  have hbackups : a.readBackupBlocks.Perm (a.backups.entries.flatMap fun e => e.2) := by
    rw [readBackupBlocks, hfilter]
    exact sortByKey_perm _ _
  have hperm : (a.readBackupBlocks ++ a.loadActiveBlocks).Perm blocks :=
    (hbackups.append_right _).trans h.perm
  rw [ArchiveStore.loadAllBlocks, sortByKey_eq hperm h.increasing, dedupByKey_eq h.increasing]

end ArchiveStore.Holds

/-! ## Runs -/

/-- The blocks that follow a chain, appended one after the other to an archive that was empty,
after the last block of that chain or without it. -/
inductive Recorded (g : Blockchain) : ArchiveStore → Blockchain → List Block → Prop
  | start {maxActiveBytes : ℕ} {a : ArchiveStore} (hnew : ArchiveStore.new maxActiveBytes = .ok a) :
      Recorded g a g []
  | first {maxActiveBytes : ℕ} {a a' : ArchiveStore}
      (hnew : ArchiveStore.new maxActiveBytes = .ok a)
      (happend : a.appendFinalized g.tip g = .ok a') : Recorded g a' g [g.tip]
  | next {a a' : ArchiveStore} {c c' : Blockchain} {blocks : List Block} {block : Block}
      (h : Recorded g a c blocks) (happly : c.applyBlock block = .ok c')
      (happend : a.appendFinalized block c = .ok a') : Recorded g a' c' (blocks ++ [block])

/-- The last checkpoint is the state before the active blocks. -/
structure Continues (g : Blockchain) (a : ArchiveStore) (c : Blockchain) (blocks : List Block) :
    Prop where
  network : g.OnNetwork c
  hashed : c.Hashed
  below : ∀ b ∈ blocks, b.height ≤ c.tipHeight
  period : a.period = blocks.getLast?.map fun b => periodFromTimestamp b.timestamp
  active : a.active.isSome = true → blocks ≠ []
  checkpoint : a.checkpoints.keys = [] ∨ ∃ d, ∃ closing ∈ blocks,
    g.OnNetwork d ∧ d.Hashed ∧ d.total ≤ ieumMaxSupply ∧
      a.loadLatestSnapshot = some (StateSnapshot.fromChain d) ∧
      d.applyBlocks a.loadActiveBlocks = .ok c ∧
      ∀ name ∈ a.checkpoints.keys,
        name ≤ checkpointName (periodFromTimestamp closing.timestamp) d.tipHeight

variable {g c c' : Blockchain} {a a' : ArchiveStore} {blocks : List Block} {block : Block}

theorem Continues.of_new {maxActiveBytes : ℕ} (hg : g.Hashed)
    (hnew : ArchiveStore.new maxActiveBytes = .ok a) : Continues g a g [] := by
  rw [ArchiveStore.new, check_bind_eq_ok] at hnew
  obtain ⟨-, hnew⟩ := hnew
  cases hnew
  exact ⟨⟨rfl, rfl⟩, hg, fun b hb => absurd hb List.not_mem_nil, rfl, (fun h => nomatch h), .inl rfl⟩

/-- The name of the new checkpoint comes after all others. -/
theorem Continues.name_le (h : Continues g a c blocks) {closing : Block}
    (hlast : blocks.getLast? = some closing)
    (htimes : blocks.Pairwise (·.timestamp ≤ ·.timestamp))
    (hyear : closing.timestamp < Period.yearTenThousand) (hheight : c.tipHeight < 10 ^ 12) :
    ∀ name ∈ a.checkpoints.keys,
      name ≤ checkpointName (periodFromTimestamp closing.timestamp) c.tipHeight := by
  intro name hname
  rcases h.checkpoint with hnone | ⟨d, earlier, hearlier, -, -, -, -, hactive, hnames⟩
  · rw [hnone] at hname
    exact absurd hname List.not_mem_nil
  · obtain ⟨front, rfl⟩ := List.getLast?_eq_some_iff.1 hlast
    have htime : earlier.timestamp ≤ closing.timestamp := by
      rcases List.mem_append.1 hearlier with hfront | hclosing
      · exact (List.pairwise_append.1 htimes).2.2 earlier hfront closing (by simp)
      · rw [List.mem_singleton.1 hclosing]
    exact (hnames name hname).trans (checkpointName_le htime hyear
      (Blockchain.tipHeight_applyBlocks_le hactive) hheight)

theorem Continues.next (hdigest : ∀ bytes, (Crypto.sha256 bytes).length = 32)
    (h : Continues g a c blocks) (htimes : blocks.Pairwise (·.timestamp ≤ ·.timestamp))
    (hyears : ∀ b ∈ blocks, b.timestamp < Period.yearTenThousand)
    (hheight : block.height < 10 ^ 12) (happly : c.applyBlock block = .ok c')
    (happend : a.appendFinalized block c = .ok a') : Continues g a' c' (blocks ++ [block]) := by
  have hnext := Blockchain.tipHeight_applyBlock happly
  have hblock : block.height = c.tipHeight + 1 := (Blockchain.applyBlock_eq_ok.1 happly).1
  have hbelow : ∀ b ∈ blocks ++ [block], b.height ≤ c'.tipHeight := by
    intro b hb
    rcases List.mem_append.1 hb with hold | hlast
    · have hle := h.below b hold
      omega
    · rw [List.mem_singleton.1 hlast]
      omega
  have hnetwork := h.network.applyBlock happly
  have hhashed := Blockchain.hashed_of_applyBlock hdigest happly
  rcases ArchiveStore.appendFinalized_eq_ok happend with
    ⟨-, rfl⟩ | ⟨⟨-, hactive⟩, backup, -, rfl⟩
  · refine ⟨hnetwork, hhashed, hbelow, by simp, fun _ => by simp, ?_⟩
    rcases h.checkpoint with hnone | ⟨d, closing, hclosing, hd, hhash, hcap, hlatest, hrun, hnames⟩
    · exact .inl hnone
    · exact .inr ⟨d, closing, List.mem_append_left _ hclosing, hd, hhash, hcap, hlatest,
        Blockchain.applyBlocks_concat.2 ⟨c, hrun, happly⟩, hnames⟩
  · obtain ⟨closing, hlast⟩ := Option.isSome_iff_exists.1
      (List.getLast?_isSome.2 (h.active hactive))
    have hclosing : closing ∈ blocks := List.mem_of_getLast? hlast
    have hperiod : a.closingPeriod block = periodFromTimestamp closing.timestamp := by
      rw [ArchiveStore.closingPeriod, h.period, hlast]
      rfl
    have hnames := h.name_le hlast htimes (hyears closing hclosing) (by omega)
    refine ⟨hnetwork, hhashed, hbelow, by simp, fun _ => by simp, .inr ⟨c, closing,
      List.mem_append_left _ hclosing, h.network, h.hashed, Blockchain.total_le_of_applyBlock happly, ?_, ?_, ?_⟩⟩
    · rw [hperiod]
      exact latestCheckpoint_insert _ hnames
    · exact Blockchain.applyBlocks_cons.2 ⟨c', happly, rfl⟩
    · intro name hname
      rw [hperiod, AList.keys_insert, List.mem_cons] at hname
      rcases hname with rfl | hold
      · exact le_rfl
      · exact hnames name (List.mem_of_mem_erase hold)

/-- The first append to an archive finds nothing to move. -/
theorem Continues.first {maxActiveBytes : ℕ} (hg : g.Hashed)
    (hnew : ArchiveStore.new maxActiveBytes = .ok a)
    (happend : a.appendFinalized g.tip g = .ok a') : Continues g a' g [g.tip] := by
  rw [ArchiveStore.new, check_bind_eq_ok] at hnew
  obtain ⟨-, hnew⟩ := hnew
  cases hnew
  rcases ArchiveStore.appendFinalized_eq_ok happend with ⟨-, rfl⟩ | ⟨⟨-, hactive⟩, -⟩
  · refine ⟨⟨rfl, rfl⟩, hg, fun b hb => ?_, rfl, fun _ => List.cons_ne_nil _ _, .inl rfl⟩
    rw [List.mem_singleton.1 hb]
    exact le_rfl
  · cases hactive

theorem Recorded.holds (h : Recorded g a c blocks) :
    a.Holds blocks ∧ ∀ b ∈ blocks, b.height ≤ c.tipHeight := by
  induction h with
  | start hnew => exact ⟨ArchiveStore.Holds.of_new hnew, fun b hb => absurd hb List.not_mem_nil⟩
  | first hnew happend =>
      refine ⟨(ArchiveStore.Holds.of_new hnew).append (fun b hb => absurd hb List.not_mem_nil)
        happend, fun b hb => ?_⟩
      rw [List.mem_singleton.1 hb]
      exact le_rfl
  | @next a a' c c' blocks block _ happly happend ih =>
      obtain ⟨hholds, hbelow⟩ := ih
      have hnext := Blockchain.tipHeight_applyBlock happly
      have hblock : block.height = c.tipHeight + 1 := (Blockchain.applyBlock_eq_ok.1 happly).1
      refine ⟨hholds.append (fun b hb => ?_) happend, fun b hb => ?_⟩
      · have hle := hbelow b hb
        omega
      · rcases List.mem_append.1 hb with hold | hlast
        · have hle := hbelow b hold
          omega
        · rw [List.mem_singleton.1 hlast]
          omega

theorem Recorded.continues (hdigest : ∀ bytes, (Crypto.sha256 bytes).length = 32)
    (hg : g.Reachable) (h : Recorded g a c blocks)
    (htimes : blocks.Pairwise (·.timestamp ≤ ·.timestamp))
    (hyears : ∀ b ∈ blocks, b.timestamp < Period.yearTenThousand)
    (hheights : ∀ b ∈ blocks, b.height < 10 ^ 12) : Continues g a c blocks := by
  induction h with
  | start hnew => exact Continues.of_new (hg.hashed hdigest) hnew
  | first hnew happend => exact Continues.first (hg.hashed hdigest) hnew happend
  | @next a a' c c' blocks block _ happly happend ih =>
      have hbefore := (List.pairwise_append.1 htimes).1
      have hyears' : ∀ b ∈ blocks, b.timestamp < Period.yearTenThousand := fun b hb =>
        hyears b (List.mem_append_left _ hb)
      have hcontinues := ih hbefore hyears' fun b hb => hheights b (List.mem_append_left _ hb)
      exact hcontinues.next hdigest hbefore hyears' (hheights block (by simp)) happly happend

/-- The archive keeps the whole history. After any number of appends exactly the appended blocks
are read, in the order of their heights, and where there is a checkpoint the last one leads
through the active blocks to the present state. -/
theorem archive_keeps_history (hdigest : ∀ bytes, (Crypto.sha256 bytes).length = 32)
    (hg : g.Reachable) (h : Recorded g a c blocks)
    (htimes : blocks.Pairwise (·.timestamp ≤ ·.timestamp))
    (hyears : ∀ b ∈ blocks, b.timestamp < Period.yearTenThousand)
    (hheights : ∀ b ∈ blocks, b.height < 10 ^ 12) :
    a.loadAllBlocks = blocks ∧ blocks.Pairwise (·.height < ·.height) ∧
      ∀ snapshot, a.loadLatestSnapshot = some snapshot →
        ∃ restored final, Blockchain.fromSnapshotWithStaking snapshot = .ok restored ∧
          Blockchain.stateHash restored.toLedger = snapshot.stateHash ∧
          restored.applyBlocks a.loadActiveBlocks = .ok final ∧ c.SameState final := by
  have hholds := h.holds.1
  refine ⟨hholds.loadAllBlocks, hholds.increasing, fun snapshot hsnapshot => ?_⟩
  rcases (h.continues hdigest hg htimes hyears hheights).checkpoint with
    hnone | ⟨d, -, -, -, hhash, hcap, hlatest, hrun, -⟩
  · have hlast : lastName a.checkpoints.keys = none := lastName_eq_none_iff.2 hnone
    rw [ArchiveStore.loadLatestSnapshot, latestCheckpoint, hlast] at hsnapshot
    cases hsnapshot
  · cases hlatest.symm.trans hsnapshot
    obtain ⟨restored, hrestored, hsame⟩ := Blockchain.fromSnapshot_fromChain hhash hcap
    obtain ⟨final, hfinal, hsame'⟩ := hsame.applyBlocks hrun
    exact ⟨restored, final, hrestored, by rw [← hsame.toLedger]; rfl, hfinal, hsame'⟩

end

/-! An empty ledger that begins with 1970, and a block of the next month. -/

namespace NextMonth

local instance nextMonthCrypto : Crypto := StandIn.crypto fun _ => List.replicate 32 0

def chain : Blockchain := Blockchain.withChainId 1 []

def february : Block := Block.new 1 chain.tipHash 2678400 "p" []

def archive : ArchiveStore :=
  { maxActiveBytes := maxActiveBlockBytes, active := none, period := none, backups := ∅
    checkpoints := ∅ }

theorem applyBlock_new (timestamp : ℕ) :
    ∃ c, chain.applyBlock (Block.new 1 chain.tipHash timestamp "p" []) = .ok c := by
  have hcap : validateSupplyCap chain.toLedger = .ok () := by decide
  have hexecute : chain.execute (Block.new 1 chain.tipHash timestamp "p" []) =
      .ok chain.toLedger :=
    Blockchain.execute_eq_ok.2 ⟨chain.toLedger, rfl, rfl, hcap⟩
  exact ⟨_, Blockchain.applyBlock_eq_ok.2 ⟨rfl, rfl, rfl, _, hexecute, rfl⟩⟩

theorem applyBlock_february : ∃ c, chain.applyBlock february = .ok c := applyBlock_new 2678400

theorem length_hash (bytes : Bytes) : (sha256Hex bytes).toList.length = 64 := by
  rw [String.length_toList, sha256Hex, length_hexEncode]
  rfl

theorem length_line : (line Block.json chain.tip).length ≤ maxActiveBlockBytes ∧
    (line Block.json february).length ≤ maxActiveBlockBytes := by
  have hfirst := Block.length_line_le (b := chain.tip) rfl rfl
  have hsecond := Block.length_line_le (b := february) rfl rfl
  have hhash : chain.tip.hash.toList.length = 64 := length_hash _
  have hhash' : february.hash.toList.length = 64 := length_hash _
  have hprevious : february.previousHash.toList.length = 64 := length_hash _
  have hzeros : chain.tip.previousHash.toList.length = 64 := by decide
  have hsmall : chain.tip.producer.toList.length + february.producer.toList.length +
      (decimal chain.tip.height).toList.length + (decimal chain.tip.timestamp).toList.length +
      (decimal february.height).toList.length + (decimal february.timestamp).toList.length ≤
        100 := by decide
  unfold maxActiveBlockBytes
  omega

theorem period_ne : periodFromTimestamp 0 ≠ periodFromTimestamp 2678400 := by
  decide

/-- The block opens a new active file. -/
theorem recorded : ∃ a c, Recorded chain a c [chain.tip, february] ∧
    a.loadLatestSnapshot = some (StateSnapshot.fromChain chain) := by
  obtain ⟨c, happly⟩ := applyBlock_february
  obtain ⟨a₁, ha₁⟩ := ArchiveStore.exists_appendFinalized (a := archive) chain length_line.1
    fun h => absurd h.2 Bool.false_ne_true
  have hnew : ArchiveStore.new maxActiveBlockBytes = .ok archive := rfl
  have hfirst := Recorded.first hnew ha₁
  rcases ArchiveStore.appendFinalized_eq_ok ha₁ with ⟨-, rfl⟩ | ⟨⟨-, hactive⟩, -⟩
  · have hname : ∃ backup, uniqueBackupPath archive.backups (periodFromTimestamp 0) = some backup :=
      ⟨_, if_neg (AList.notMem_empty _)⟩
    obtain ⟨a₂, ha₂⟩ := ArchiveStore.exists_appendFinalized
      (a := { archive with active := some [chain.tip], period := some (periodFromTimestamp 0) })
      chain length_line.2 fun _ => hname
    refine ⟨a₂, c, hfirst.next happly ha₂, ?_⟩
    rcases ArchiveStore.appendFinalized_eq_ok ha₂ with ⟨hrolls, -⟩ | ⟨-, backup, -, rfl⟩
    · exact absurd ⟨.inl ⟨_, rfl, period_ne⟩, rfl⟩ hrolls
    · exact latestCheckpoint_insert _ fun other hother => absurd hother List.not_mem_nil
  · cases hactive

theorem archive_keeps_history_two : ∃ a c, Recorded chain a c [chain.tip, february] ∧
    a.loadAllBlocks = [chain.tip, february] ∧ ∃ restored final,
      Blockchain.fromSnapshotWithStaking (StateSnapshot.fromChain chain) = .ok restored ∧
        restored.applyBlocks a.loadActiveBlocks = .ok final ∧ c.SameState final := by
  obtain ⟨a, c, hrecorded, hlatest⟩ := recorded
  have hreach : chain.Reachable := ⟨chain, [], Blockchain.isGenesis_withChainId _ _, rfl⟩
  obtain ⟨hall, -, hrestore⟩ := archive_keeps_history (fun _ => List.length_replicate) hreach
    hrecorded (by decide) (by decide) (by decide)
  obtain ⟨restored, final, hrestored, -, hfinal, hsame⟩ := hrestore _ hlatest
  exact ⟨a, c, hrecorded, hall, restored, final, hrestored, hfinal, hsame⟩

end NextMonth

end IeumChain
