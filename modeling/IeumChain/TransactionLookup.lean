import IeumChain.Library.LatestReports
import IeumChain.Library.PaddedNames
import IeumChain.ArchiveRecovery
import IeumChain.DbTransactions
import IeumChain.LedgerAgreement
import IeumChain.Nonces
import IeumChain.PoolIndexes

/-!
# Looking up a transaction

A transaction is found by its id: in the archived blocks, in the blocks in memory or in the
pool by a search, and in the database by an index that every commit extends. On one history
they all lead to the same place, whichever blocks a node has kept and however often it has
been restarted.
-/
namespace IeumChain

open ByteCodec Text Outcome MachineWords FiniteMap LatestReports

/-- A transaction with its block and its index in the block. -/
abbrev Found := Block × ℕ × Transaction

section
variable [Crypto]

structure CanonicalState where
  schemaVersion : ℕ
  chainId : ℕ
  genesisCommitment : String
  height : ℕ
  blockHash : String
  stateRoot : String
  balances : HashMap Address ℕ
  nonces : HashMap Address ℕ
  executedEvents : Finset String
  staking : StakingState
  heightToHash : HashMap ℕ String
  transactionIndex : HashMap String (ℕ × ℕ)

def Block.locations (b : Block) : List (String × ℕ × ℕ) :=
  b.transactions.zipIdx.map fun p => (p.1.id, b.height, p.2)

def CanonicalState.fromChain (c : Blockchain) : CanonicalState where
  schemaVersion := 3
  chainId := c.chainId
  genesisCommitment := c.genesisCommitment
  height := c.tipHeight
  blockHash := c.tipHash
  stateRoot := Blockchain.stateHash c.toLedger
  balances := c.balances
  nonces := c.nextNonces
  executedEvents := c.executedEvents
  staking := c.staking
  heightToHash := collect (c.blocks.map fun b => (b.height, b.hash))
  transactionIndex := collect (c.blocks.flatMap Block.locations)

namespace StateStore

def currentKey : String := "canonical/current"

def heightKey (height : ℕ) : String := "canonical/height/" ++ PaddedNames.padded 20 height

def transactionKey (id : String) : String := "transaction/" ++ id

def locationJson (location : ℕ × ℕ) : Bytes :=
  utf8 (String.ofList (jsonArray [jsonNumber location.1, jsonNumber location.2]))

/-- The rows of a state with some text. -/
def rows (current : Bytes) (s : CanonicalState) : List (String × Bytes) :=
  (currentKey, current) ::
    (heightKey s.height,
      utf8 (String.ofList (jsonArray [jsonString s.blockHash, jsonString s.stateRoot]))) ::
    s.transactionIndex.entries.map fun e => (transactionKey e.1, locationJson e.2)

/-- The rows are put on a handle that has just been opened and committed together. The text of the
state is left open, and so is the file of that text beside the database. -/
def commit (current : Bytes) (faults : Faults) (s : Sqlite) (c : Blockchain) :
    Sqlite × Except String CanonicalState :=
  let state := CanonicalState.fromChain c
  let db := (rows current state).foldl (fun db row => db.put row.1 row.2)
    ({ sqlite := s, pending := ∅ } : EmbeddedDb)
  match db.commitAnswered faults with
  | (db, .error e) => (db.sqlite, .error e)
  | (db, .ok _) => (db.sqlite, .ok state)

/-- A call of `commit`. -/
structure Call where
  current : Bytes
  faults : Faults
  chain : Blockchain

/-- The file after some calls, and the chains whose call has not failed. -/
def commitAll : List Call → Sqlite → List Blockchain → Sqlite × List Blockchain
  | [], s, committed => (s, committed)
  | call :: rest, s, committed =>
      match commit call.current call.faults s call.chain with
      | (s, .error _) => commitAll rest s committed
      | (s, .ok _) => commitAll rest s (committed ++ [call.chain])

end StateStore

/-! ## Places -/

/-- Every transaction of some blocks with its place. -/
def places (blocks : List Block) : List Found :=
  blocks.flatMap fun b => b.transactions.zipIdx.map fun p => (b, p.2, p.1)

omit [Crypto] in
theorem mem_places {blocks : List Block} {f : Found} :
    f ∈ places blocks ↔ f.1 ∈ blocks ∧ f.1.transactions[f.2.1]? = some f.2.2 := by
  obtain ⟨b, i, tx⟩ := f
  simp only [places, List.mem_flatMap, List.mem_map, Prod.mk.injEq, Prod.exists]
  constructor
  · rintro ⟨b', hb', tx', i', hmem, rfl, rfl, rfl⟩
    exact ⟨hb', List.mem_zipIdx_iff_getElem?.1 hmem⟩
  · rintro ⟨hb, htx⟩
    exact ⟨b, hb, tx, i, List.mem_zipIdx_iff_getElem?.2 htx, rfl, rfl, rfl⟩

omit [Crypto] in
theorem map_places (blocks : List Block) : (places blocks).map (·.2.2) = transactionsIn blocks := by
  induction blocks with
  | nil => rfl
  | cons b rest ih =>
      have hhead : (b.transactions.zipIdx.map fun p => (b, p.2, p.1)).map (·.2.2) =
          b.transactions := by
        rw [List.map_map]
        exact List.zipIdx_map_fst 0 b.transactions
      rw [places, List.flatMap_cons, List.map_append, hhead]
      exact congrArg (b.transactions ++ ·) ih

omit [Crypto] in
/-- No transaction is executed twice. -/
theorem nodup_of_countsNonces {history : List Transaction} {l : Ledger}
    (h : CountsNonces history l) : history.Nodup := by
  rw [List.nodup_iff_count_le_one]
  intro tx
  have hsent : (sentBy tx.sender history).Nodup := by
    refine List.Nodup.of_map (·.nonce) ?_
    rw [h.inOrder]
    exact List.nodup_range
  have hcount : history.count tx = (sentBy tx.sender history).count tx :=
    (List.count_filter (by simp)).symm
  rw [hcount]
  exact List.nodup_iff_count_le_one.1 hsent tx

theorem CountsNonces.applyBlocks {c c' : Blockchain} {blocks : List Block}
    (h : CountsNonces (transactionsIn c.blocks) c.toLedger) (hrun : c.applyBlocks blocks = .ok c') :
    CountsNonces (transactionsIn c'.blocks) c'.toLedger :=
  foldlM_invariant (P := fun x => CountsNonces (transactionsIn x.blocks) x.toLedger)
    (fun _ _ _ _ hx hxy => hx.applyBlock hxy) h hrun

/-- The blocks from genesis on, in which no two transactions share an id. -/
structure History (g H : Blockchain) : Prop where
  genesis : g.IsGenesis
  grown : ∃ blocks, g.applyBlocks blocks = .ok H
  ids : Set.InjOn Transaction.id {tx | tx ∈ transactionsIn H.blocks}

/-- A block that holds transactions is one of the history. -/
def Historic (H : Blockchain) (b : Block) : Prop := b.transactions ≠ [] → b ∈ H.blocks

section
variable {g H : Blockchain}

theorem History.nodup (h : History g H) : ((places H.blocks).map (·.2.2.id)).Nodup := by
  obtain ⟨blocks, hgrown⟩ := h.grown
  have htransactions : (transactionsIn H.blocks).Nodup :=
    nodup_of_countsNonces ((countsNonces_genesis h.genesis).applyBlocks hgrown)
  have hids : (places H.blocks).map (·.2.2.id) = (transactionsIn H.blocks).map Transaction.id := by
    rw [← map_places, List.map_map]
    rfl
  rw [hids]
  exact htransactions.map_on fun tx htx tx' htx' hid => h.ids htx htx' hid

omit [Crypto] in
theorem mem_places_of_historic {blocks : List Block} (hhist : ∀ b ∈ blocks, Historic H b)
    {f : Found} (hf : f ∈ places blocks) : f ∈ places H.blocks := by
  obtain ⟨hb, htx⟩ := mem_places.1 hf
  refine mem_places.2 ⟨hhist f.1 hb fun hnone => ?_, htx⟩
  rw [hnone] at htx
  cases htx

/-- On one history an id has one place. -/
theorem History.place_unique (h : History g H) {f f' : Found} (hf : f ∈ places H.blocks)
    (hf' : f' ∈ places H.blocks) (hid : f.2.2.id = f'.2.2.id) : f = f' :=
  List.inj_on_of_nodup_map h.nodup hf hf' hid

theorem History.place_eq (h : History g H) {blocks blocks' : List Block}
    (hhist : ∀ b ∈ blocks, Historic H b) (hhist' : ∀ b ∈ blocks', Historic H b) {f f' : Found}
    (hf : f ∈ places blocks) (hf' : f' ∈ places blocks') (hid : f.2.2.id = f'.2.2.id) : f = f' := by
  apply h.place_unique
  · exact mem_places_of_historic hhist hf
  · exact mem_places_of_historic hhist' hf'
  · exact hid

/-- Everything that a node keeps is historic. -/
structure KeepsHistoric (H : Blockchain) (n : ArchivingNode) : Prop where
  active : ∀ b ∈ n.archive.loadActiveBlocks, Historic H b
  backups : ∀ blocks ∈ values n.archive.backups, ∀ b ∈ blocks, Historic H b
  chain : ∀ c, n.chain = some c → ∀ b ∈ c.blocks, Historic H b

/-- A finalized block is one of the history. -/
def Finalizes (H : Blockchain) : ArchivingNode.Event → Prop
  | .installFinalized block => block ∈ H.blocks
  | .installFinalizedCut block => block ∈ H.blocks
  | _ => True

variable {n n' : ArchivingNode} {a a' : ArchiveStore} {block : Block} {c c' : Blockchain}

omit [Crypto] in
theorem KeepsHistoric.loadAllBlocks (h : KeepsHistoric H n) :
    ∀ b ∈ n.archive.loadAllBlocks, Historic H b := by
  intro b hb
  have hsorted := (List.destutter_sublist _ _).subset hb
  rcases List.mem_append.1 ((KeyedLists.mem_sortByKey _).1 hsorted) with hbackup | hactive
  · obtain ⟨e, he, hmem⟩ := List.mem_flatMap.1 ((KeyedLists.mem_sortByKey _).1 hbackup)
    exact h.backups e.2 (List.mem_map_of_mem (List.mem_of_mem_filter he)) b hmem
  · exact h.active b hactive

theorem KeepsHistoric.appendFinalized {chain : Blockchain} (h : KeepsHistoric H n)
    (hblock : Historic H block) (happend : n.archive.appendFinalized block chain = .ok a)
    (harchive : n'.archive = a) (hchain : ∀ c, n'.chain = some c → ∀ b ∈ c.blocks, Historic H b) :
    KeepsHistoric H n' := by
  subst harchive
  rcases ArchiveStore.appendFinalized_eq_ok happend with ⟨-, hcase⟩ | ⟨-, backup, -, hcase⟩
  · refine ⟨?_, ?_, hchain⟩
    · rw [hcase]
      intro b hb
      rcases List.mem_append.1 hb with hold | hnew
      · exact h.active b hold
      · exact List.mem_singleton.1 hnew ▸ hblock
    · rw [hcase]
      exact h.backups
  · refine ⟨?_, ?_, hchain⟩
    · rw [hcase]
      intro b hb
      exact List.mem_singleton.1 hb ▸ hblock
    · rw [hcase]
      intro blocks hblocks
      obtain ⟨name, hname⟩ := mem_values.1 hblocks
      by_cases hsame : name = backup
      · subst hsame
        rw [AList.lookup_insert, Option.some.injEq] at hname
        exact hname ▸ h.active
      · rw [AList.lookup_insert_ne hsame] at hname
        exact h.backups blocks (mem_values.2 ⟨name, hname⟩)

theorem historic_applyBlocks {blocks : List Block} (hc : ∀ b ∈ c.blocks, Historic H b)
    (hblocks : ∀ b ∈ blocks, Historic H b) (h : c.applyBlocks blocks = .ok c') :
    ∀ b ∈ c'.blocks, Historic H b := by
  rw [Blockchain.blocks_applyBlocks h]
  intro b hb
  rcases List.mem_append.1 hb with hold | hnew
  · exact hc b hold
  · exact hblocks b hnew

omit [Crypto] in
theorem historic_of_empty (hempty : block.transactions = []) : ∀ b ∈ [block], Historic H b := by
  intro b hb hne
  rw [List.mem_singleton.1 hb] at hne
  exact absurd hempty hne

omit [Crypto] in
theorem historic_fromSnapshot {s : StateSnapshot}
    (h : Blockchain.fromSnapshotWithStaking s = .ok c) :
    ∀ b ∈ c.blocks, Historic H b := by
  simp only [Blockchain.fromSnapshotWithStaking, check_bind_eq_ok, pure_eq_ok] at h
  obtain ⟨-, -, rfl⟩ := h
  exact historic_of_empty rfl

theorem historic_restoreState {s : StateSnapshot} {wrongChain wrongGenesis wrongRoot : String}
    (h : Disk.restoreState g s wrongChain wrongGenesis wrongRoot = .ok c) :
    ∀ b ∈ c.blocks, Historic H b := by
  rw [Disk.restoreState, check_bind_eq_ok, check_bind_eq_ok, bind_eq_ok] at h
  obtain ⟨-, -, chain, hchain, h⟩ := h
  rw [check_bind_eq_ok, pure_eq_ok] at h
  exact h.2 ▸ historic_fromSnapshot hchain

theorem Blockchain.IsGenesis.historic (hg : g.IsGenesis) : ∀ b ∈ g.blocks, Historic H b := by
  obtain ⟨timestamp, hblocks⟩ := hg.blocks
  rw [hblocks]
  exact historic_of_empty rfl

theorem KeepsHistoric.restore (h : KeepsHistoric H n) (hg : g.IsGenesis)
    (hrestore : (n.archive.disk n.store).restore g = .ok c) : ∀ b ∈ c.blocks, Historic H b := by
  unfold ArchiveStore.disk Disk.restore at hrestore
  split at hrestore
  · exact historic_restoreState hrestore
  · rw [bind_eq_ok] at hrestore
    obtain ⟨chain, hchain, happly⟩ := hrestore
    exact historic_applyBlocks (historic_restoreState hchain) h.active happly
  · refine historic_applyBlocks hg.historic ?_ hrestore
    exact fun b hb => h.loadAllBlocks b (List.mem_of_mem_filter hb)

theorem KeepsHistoric.appendGenesis (h : KeepsHistoric H n) (hg : g.IsGenesis)
    (hok : n.appendGenesis g = .ok n') : KeepsHistoric H n' := by
  unfold ArchivingNode.appendGenesis at hok
  split_ifs at hok
  · simp only [bind_eq_ok, pure_eq_ok] at hok
    obtain ⟨archive, happend, rfl⟩ := hok
    have htip : g.tip ∈ g.blocks := List.getLast_mem _
    exact h.appendFinalized (hg.historic _ htip) happend rfl h.chain
  · cases hok
    exact h

theorem KeepsHistoric.append (h : KeepsHistoric H n) (hblock : block ∈ H.blocks)
    (hok : n.append block = .ok (n', c)) :
    KeepsHistoric H n' ∧ ∀ b ∈ c.blocks, Historic H b := by
  simp only [ArchivingNode.append, bind_eq_ok, okOr_eq_ok, pure_eq_ok, Prod.mk.injEq] at hok
  obtain ⟨before, hbefore, after, happly, archive, happend, rfl, rfl⟩ := hok
  have hhist : Historic H block := fun _ => hblock
  have hafter : before.applyBlocks [block] = .ok after :=
    Blockchain.applyBlocks_cons.2 ⟨after, happly, rfl⟩
  refine ⟨h.appendFinalized hhist happend rfl h.chain, ?_⟩
  exact historic_applyBlocks (h.chain before hbefore) (List.forall_mem_singleton.2 hhist) hafter

omit [Crypto] in
theorem KeepsHistoric.withChain (h : KeepsHistoric H n) (harchive : n'.archive = n.archive)
    (hchain : ∀ c, n'.chain = some c → ∀ b ∈ c.blocks, Historic H b) : KeepsHistoric H n' :=
  ⟨harchive ▸ h.active, harchive ▸ h.backups, hchain⟩

omit [Crypto] in
theorem KeepsHistoric.holding (h : KeepsHistoric H n) (harchive : n'.archive = n.archive)
    (hsome : n'.chain = some c) (hc : ∀ b ∈ c.blocks, Historic H b) : KeepsHistoric H n' := by
  apply h.withChain harchive
  intro c' hc'
  rw [hsome, Option.some.injEq] at hc'
  exact hc' ▸ hc

omit [Crypto] in
theorem KeepsHistoric.off (h : KeepsHistoric H n) (harchive : n'.archive = n.archive)
    (hnone : n'.chain = none) : KeepsHistoric H n' := by
  apply h.withChain harchive
  intro c hc
  rw [hnone] at hc
  cases hc

theorem KeepsHistoric.step {validators : List Validator} {e : ArchivingNode.Event}
    (h : KeepsHistoric H n) (hg : g.IsGenesis) (hevent : Finalizes H e)
    (hok : n.step g validators e = .ok n') : KeepsHistoric H n' := by
  cases e with
  | start =>
      simp only [ArchivingNode.step, ArchivingNode.start, bind_eq_ok] at hok
      obtain ⟨chain, hrestore, hok⟩ := hok
      have hchain := h.restore hg hrestore
      split at hok
      · simp only [bind_eq_ok, pure_eq_ok] at hok
        obtain ⟨n₁, happend, rfl⟩ := hok
        exact (h.appendGenesis hg happend).holding rfl rfl hchain
      · cases hok
        exact h.holding rfl rfl hchain
  | startCut =>
      simp only [ArchivingNode.step, ArchivingNode.startCut, bind_eq_ok] at hok
      obtain ⟨chain, -, hok⟩ := hok
      split at hok
      · simp only [bind_eq_ok, pure_eq_ok] at hok
        obtain ⟨n₁, happend, rfl⟩ := hok
        exact (h.appendGenesis hg happend).off rfl rfl
      · cases hok
        exact h.off rfl rfl
  | installFinalized block =>
      simp only [ArchivingNode.step, bind_eq_ok, pure_eq_ok] at hok
      obtain ⟨result, happend, hok⟩ := hok
      obtain ⟨n₁, after⟩ := result
      cases hok
      obtain ⟨hkept, hafter⟩ := h.append hevent happend
      exact hkept.holding rfl rfl hafter
  | installFinalizedCut block =>
      simp only [ArchivingNode.step, bind_eq_ok, pure_eq_ok] at hok
      obtain ⟨result, happend, hok⟩ := hok
      obtain ⟨n₁, after⟩ := result
      cases hok
      exact (h.append hevent happend).1.off rfl rfl
  | installCertifiedSnapshot snapshot certificate =>
      simp only [ArchivingNode.step, ArchivingNode.installCertifiedSnapshot, bind_eq_ok] at hok
      obtain ⟨chain, -, -, -, -, -, restored, hrestored, -, -, hok⟩ := hok
      cases hok
      exact h.holding rfl rfl (historic_fromSnapshot hrestored)
  | stop =>
      cases hok
      exact h.off rfl rfl

theorem KeepsHistoric.run {validators : List Validator} {events : List ArchivingNode.Event}
    (h : KeepsHistoric H n) (hg : g.IsGenesis) (hevents : ∀ e ∈ events, Finalizes H e)
    (hok : n.run g validators events = .ok n') : KeepsHistoric H n' := by
  induction events generalizing n with
  | nil =>
      cases hok
      exact h
  | cons e rest ih =>
      obtain ⟨n₁, hstep, hrest⟩ := ArchivingNode.run_cons.1 hok
      rw [List.forall_mem_cons] at hevents
      exact ih (h.step hg hevents.1 hstep) hevents.2 hrest

/-- The place is in an archived block or in one in memory, and the id is that of the transaction
there. -/
def Kept (archive : ArchiveStore) (c : Blockchain) (hash : String) (f : Found) : Prop :=
  (f.1 ∈ archive.loadAllBlocks ∨ f.1 ∈ c.blocks) ∧ f.1.transactions[f.2.1]? = some f.2.2 ∧
    f.2.2.id = trimHexMarkers hash

end

/-! ## The index agrees with the search -/

namespace StateStore

variable {s s' : Sqlite} {current : Bytes} {faults : Faults} {state : CanonicalState}

omit [Crypto] in
theorem toList_transactionKey (id : String) :
    (transactionKey id).toList = "transaction/".toList ++ id.toList := String.toList_append

omit [Crypto] in
theorem transactionKey_injective : Function.Injective transactionKey := by
  intro id id' h
  have hchars := congrArg String.toList h
  rw [toList_transactionKey, toList_transactionKey] at hchars
  exact String.toList_injective (List.append_cancel_left hchars)

omit [Crypto] in
theorem transactionKey_ne {id name rest : String} (h : name = "canonical/" ++ rest) :
    transactionKey id ≠ name := by
  rintro rfl
  have hchars := congrArg String.toList h
  rw [toList_transactionKey, String.toList_append] at hchars
  simp at hchars

omit [Crypto] in
theorem currentKey_eq : currentKey = "canonical/" ++ "current" := by decide

omit [Crypto] in
theorem heightKey_eq (height : ℕ) :
    heightKey height = "canonical/" ++ ("height/" ++ PaddedNames.padded 20 height) := by
  have hparts : "canonical/height/" = "canonical/" ++ "height/" := by decide
  rw [← String.append_assoc, ← hparts]
  rfl

omit [Crypto] in
theorem mem_rows {id : String} {value : Bytes} :
    (transactionKey id, value) ∈ rows current state ↔
      ∃ location, state.transactionIndex.lookup id = some location ∧
        locationJson location = value := by
  have hcurrent : transactionKey id ≠ currentKey := transactionKey_ne currentKey_eq
  have hheight : transactionKey id ≠ heightKey state.height := transactionKey_ne (heightKey_eq _)
  simp only [rows, List.mem_cons, Prod.mk.injEq, hcurrent, hheight, false_and, false_or,
    List.mem_map]
  constructor
  · rintro ⟨e, he, hkey, hvalue⟩
    exact ⟨e.2, transactionKey_injective hkey ▸ AList.mem_lookup_iff.2 he, hvalue⟩
  · rintro ⟨location, hlookup, hvalue⟩
    exact ⟨⟨id, location⟩, AList.mem_lookup_iff.1 hlookup, rfl, hvalue⟩

omit [Crypto] in
/-- The rows about a transaction are those of its entry in the index. -/
theorem latest_rows (id : String) :
    latest ((rows current state).map fun row => (row.1, some row.2)) (transactionKey id) =
      (state.transactionIndex.lookup id).map fun location => some (locationJson location) := by
  have hrow : ∀ value, (transactionKey id, value) ∈
      (rows current state).map (fun row => (row.1, some row.2)) ↔
        ∃ location, state.transactionIndex.lookup id = some location ∧
          some (locationJson location) = value := by
    intro value
    rw [List.mem_map]
    constructor
    · rintro ⟨⟨key, bytes⟩, hrow, hvalue⟩
      rw [Prod.mk.injEq] at hvalue
      obtain ⟨rfl, rfl⟩ := hvalue
      obtain ⟨location, hlookup, hbytes⟩ := mem_rows.1 hrow
      exact ⟨location, hlookup, congrArg some hbytes⟩
    · rintro ⟨location, hlookup, rfl⟩
      refine ⟨(transactionKey id, locationJson location), mem_rows.2 ⟨location, hlookup, rfl⟩, ?_⟩
      dsimp only
  refine Option.ext fun value => ?_
  rw [latest_eq_some_iff, hrow, Option.map_eq_some_iff]
  intro v v' hv hv'
  obtain ⟨location, hlookup, rfl⟩ := (hrow v).1 hv
  obtain ⟨location', hlookup', rfl⟩ := (hrow v').1 hv'
  rw [Option.some.inj (hlookup.symm.trans hlookup')]

omit [Crypto] in
theorem foldl_put (rows : List (String × Bytes)) (s : Sqlite) :
    rows.foldl (fun db row => db.put row.1 row.2) ({ sqlite := s, pending := ∅ } : EmbeddedDb) =
      { sqlite := s, pending := collect (rows.map fun row => (row.1, some row.2)) } := by
  induction rows using List.reverseRecOn with
  | nil => rfl
  | append_singleton rows row ih =>
      rw [List.foldl_concat, ih, List.map_append, collect, collect, List.foldl_append]
      rfl

/-- A commit leaves the file as it is, or writes the rows of the chain. -/
theorem commit_cases (current : Bytes) (faults : Faults) {s : Sqlite} (hready : s.Ready)
    (c : Blockchain) :
    (∃ e, commit current faults s c = (s, .error e)) ∨
      ∃ s', commit current faults s c = (s', .ok (.fromChain c)) ∧ s'.Ready ∧
        ∀ id, s'.values.lookup (transactionKey id) =
          (((CanonicalState.fromChain c).transactionIndex.lookup id).map locationJson).or
            (s.values.lookup (transactionKey id)) := by
  have hput := foldl_put (rows current (.fromChain c)) s
  obtain ⟨db, hdb⟩ : ∃ db, EmbeddedDb.mk s
      (collect ((rows current (.fromChain c)).map fun row => (row.1, some row.2))) = db := ⟨_, rfl⟩
  rw [hdb] at hput
  have hready' : db.sqlite.Ready := hdb ▸ hready
  simp only [commit, hput]
  rcases EmbeddedDb.commitAnswered_cases faults hready' with ⟨-, hsame⟩ | ⟨-, e, herror⟩
  · obtain ⟨db', hcommit, hready'', hview⟩ := EmbeddedDb.commit_ready hready'
    refine .inr ⟨db'.sqlite, by rw [hsame, hcommit], hready'', fun id => ?_⟩
    have hlookup : db'.view.durable (transactionKey id) = db.view.get (transactionKey id) := by
      rw [hview]
      rfl
    have hpending : db.pending.lookup (transactionKey id) =
        ((CanonicalState.fromChain c).transactionIndex.lookup id).map
          fun location => some (locationJson location) := by
      rw [← hdb]
      exact (lookup_collect _ _).trans (latest_rows id)
    have hget : db.view.get (transactionKey id) =
        (db.pending.lookup (transactionKey id)).getD (s.values.lookup (transactionKey id)) := by
      rw [← hdb]
      rfl
    refine hlookup.trans (hget.trans ?_)
    rw [hpending]
    cases (CanonicalState.fromChain c).transactionIndex.lookup id <;> rfl
  · exact .inl ⟨e, by rw [herror, ← hdb]⟩

end StateStore

section
variable {g H c : Blockchain}

theorem flatMap_locations (blocks : List Block) : blocks.flatMap Block.locations =
    (places blocks).map fun f => (f.2.2.id, f.1.height, f.2.1) := by
  rw [places, List.map_flatMap]
  refine congrArg (List.flatMap · blocks) (funext fun b => ?_)
  rw [List.map_map]
  rfl

/-- An entry of the index is a place. -/
theorem History.transactionIndex_lookup (h : History g H) (hhist : ∀ b ∈ c.blocks, Historic H b)
    {id : String} {location : ℕ × ℕ} :
    (CanonicalState.fromChain c).transactionIndex.lookup id = some location ↔
      ∃ f ∈ places c.blocks, f.2.2.id = id ∧ (f.1.height, f.2.1) = location := by
  have hmem : ∀ location, (id, location) ∈ c.blocks.flatMap Block.locations ↔
      ∃ f ∈ places c.blocks, f.2.2.id = id ∧ (f.1.height, f.2.1) = location := by
    intro location
    rw [flatMap_locations, List.mem_map]
    simp only [Prod.mk.injEq]
  rw [CanonicalState.fromChain, lookup_collect, latest_eq_some_iff, hmem]
  intro location location' hl hl'
  obtain ⟨f, hf, hid, rfl⟩ := (hmem location).1 hl
  obtain ⟨f', hf', hid', rfl⟩ := (hmem location').1 hl'
  rw [h.place_eq hhist hhist hf hf' (hid.trans hid'.symm)]

/-- What the index of the file says about the committed chains. -/
structure Indexes (H : Blockchain) (s : Sqlite) (committed : List Blockchain) : Prop where
  ready : s.Ready
  historic : ∀ c ∈ committed, ∀ b ∈ c.blocks, Historic H b
  rows : ∀ id bytes, s.values.lookup (StateStore.transactionKey id) = some bytes ↔
    ∃ c ∈ committed, ∃ f ∈ places c.blocks, f.2.2.id = id ∧
      StateStore.locationJson (f.1.height, f.2.1) = bytes

variable {s : Sqlite} {committed : List Blockchain}

theorem Indexes.commit (hindexes : Indexes H s committed) (h : History g H)
    (hhist : ∀ b ∈ c.blocks, Historic H b) {s' : Sqlite} (hready : s'.Ready)
    (hrows : ∀ id, s'.values.lookup (StateStore.transactionKey id) =
      (((CanonicalState.fromChain c).transactionIndex.lookup id).map StateStore.locationJson).or
        (s.values.lookup (StateStore.transactionKey id))) : Indexes H s' (committed ++ [c]) := by
  have hhist' : ∀ c' ∈ committed ++ [c], ∀ b ∈ c'.blocks, Historic H b := by
    rw [List.forall_mem_append]
    exact ⟨hindexes.historic, List.forall_mem_singleton.2 hhist⟩
  refine ⟨hready, hhist', fun id bytes => ?_⟩
  rw [hrows]
  cases hlookup : (CanonicalState.fromChain c).transactionIndex.lookup id with
  | none =>
      have hnone : ∀ f ∈ places c.blocks, f.2.2.id ≠ id := by
        intro f hf hid
        rw [(h.transactionIndex_lookup hhist).2 ⟨f, hf, hid, rfl⟩] at hlookup
        cases hlookup
      rw [Option.map_none, Option.none_or, hindexes.rows]
      constructor
      · rintro ⟨c', hc', hf⟩
        exact ⟨c', List.mem_append_left _ hc', hf⟩
      · rintro ⟨c', hc', f, hf, hid, hbytes⟩
        rcases List.mem_append.1 hc' with hold | hnew
        · exact ⟨c', hold, f, hf, hid, hbytes⟩
        · exact absurd hid (hnone f (List.mem_singleton.1 hnew ▸ hf))
  | some location =>
      -- Any other chain has the transaction at the same place.
      obtain ⟨f, hf, hid, rfl⟩ := (h.transactionIndex_lookup hhist).1 hlookup
      rw [Option.map_some, Option.some_or, Option.some.injEq]
      constructor
      · rintro rfl
        exact ⟨c, List.mem_append_right _ (List.mem_singleton.2 rfl), f, hf, hid, rfl⟩
      · rintro ⟨c', hc', f', hf', hid', rfl⟩
        rw [h.place_eq hhist (hhist' c' hc') hf hf' (hid.trans hid'.symm)]

theorem Indexes.commitAll (hindexes : Indexes H s committed) (h : History g H)
    {calls : List StateStore.Call}
    (hcalls : ∀ call ∈ calls, ∀ b ∈ call.chain.blocks, Historic H b) :
    Indexes H (StateStore.commitAll calls s committed).1
      (StateStore.commitAll calls s committed).2 := by
  induction calls generalizing s committed with
  | nil => exact hindexes
  | cons call rest ih =>
      rw [List.forall_mem_cons] at hcalls
      rcases StateStore.commit_cases call.current call.faults hindexes.ready call.chain with
        ⟨e, herror⟩ | ⟨s', hok, hready, hrows⟩
      · simp only [StateStore.commitAll, herror]
        exact ih hindexes hcalls.2
      · simp only [StateStore.commitAll, hok]
        exact ih (hindexes.commit h hcalls.1 hready hrows) hcalls.2

end

end

/-! ## A payment in the first block -/

namespace Paid

open NextMonth Journal
open ArchivingNode (fresh run_cons)

local instance paidCrypto : Crypto := nextMonthCrypto

def funded : Blockchain := Blockchain.withChainId 21005 [(StandIn.address 1, 100)]

def payment : Block := Block.new 1 funded.tipHash 20 (StandIn.address 2) [Sample.transfer]

theorem isGenesis_funded : funded.IsGenesis := Blockchain.isGenesis_withChainId _ _

theorem history {after : Blockchain} (happly : funded.applyBlock payment = .ok after)
    (hblocks : after.blocks = funded.blocks ++ [payment]) : History funded after := by
  have htransactions : transactionsIn after.blocks = [Sample.transfer] := by
    rw [hblocks]
    rfl
  have hgrown : funded.applyBlocks [payment] = .ok after :=
    Blockchain.applyBlocks_cons.2 ⟨after, happly, rfl⟩
  refine ⟨isGenesis_funded, ⟨_, hgrown⟩, ?_⟩
  simp only [htransactions, List.mem_singleton]
  exact fun tx htx tx' htx' _ => htx.trans htx'.symm

/-- A file as the first open leaves it. -/
def opened : Sqlite := Sqlite.empty.initialized

/-- One call fails at once, the other one commits the payment. -/
def calls (after : Blockchain) : List StateStore.Call :=
  [{ current := [], faults := fun _ => some "disk I/O error", chain := funded },
    { current := [], faults := fun _ => none, chain := after }]

end Paid

end IeumChain
