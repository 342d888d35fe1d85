import IeumChain.Settings
import IeumChain.SnapshotBinding
import IeumChain.SnapshotVotes

/-!
# What carries over to another chain

Neither the signed bytes of a native transaction nor those of a snapshot attestation name
a chain. A native transaction that one chain has accepted is therefore accepted by some
chain with another identifier, and a certified state installs under any identity that the
unsigned snapshot body is given. Raw Ethereum transactions name their chain and do not
carry over.
-/
namespace IeumChain

open ByteCodec Text Outcome MachineWords FiniteMap

section
variable [Crypto]

/-! ## Transactions -/

namespace Blockchain

/-- The transactions of an accepted block were each executed, in a ledger of the same total. -/
theorem applyBlock_transaction {c c' : Blockchain} {block : Block} {tx : Transaction}
    (h : c.applyBlock block = .ok c') (htx : tx ∈ block.transactions) :
    checkTransactionSignature c.chainId tx = .ok () ∧
      ∃ l l', l.total ≤ ieumMaxSupply ∧
        runTransaction block.producer block.timestamp l tx = .ok l' := by
  obtain ⟨-, -, -, final, hexecute, -⟩ := applyBlock_eq_ok.1 h
  obtain ⟨l₁, htransactions, hevents, hcap⟩ := execute_eq_ok.1 hexecute
  have htotal := executed_total htransactions hevents
  have hfinal := validateSupplyCap_eq_ok.1 hcap
  obtain ⟨l, l', hl, happly⟩ := foldlM_mem (P := fun x => x.total = c.total)
    (fun x _ y hx hxy => by
      rw [applyTransaction, check_bind_eq_ok] at hxy
      rw [runTransaction_total hxy.2, hx]) rfl htransactions htx
  rw [applyTransaction, check_bind_eq_ok] at happly
  refine ⟨happly.1, l, l', ?_, happly.2⟩
  rw [hl]
  omega

/-- Accepted by the chain in some block. -/
def Accepts (c : Blockchain) (tx : Transaction) : Prop :=
  ∃ block c', tx ∈ block.transactions ∧ c.applyBlock block = .ok c'

/-- The next block of a chain, with one transaction. -/
def singleBlock (c : Blockchain) (timestamp : ℕ) (producer : Address) (tx : Transaction) : Block :=
  Block.new (c.tipHeight + 1) c.tipHash timestamp producer [tx]

theorem accepts_of_runTransaction {c : Blockchain} {timestamp : ℕ} {producer : Address} {l : Ledger}
    {tx : Transaction} (hsigned : checkTransactionSignature c.chainId tx = .ok ())
    (hcap : c.total ≤ ieumMaxSupply)
    (hrun : runTransaction producer timestamp c.toLedger tx = .ok l) : c.Accepts tx := by
  have hexecute : c.execute (c.singleBlock timestamp producer tx) = .ok l := by
    refine (execute_eq_ok_of_total_le hcap).2 ⟨l, ?_, rfl⟩
    have happly : applyTransaction c.chainId producer timestamp c.toLedger tx = .ok l := by
      rw [applyTransaction, check_bind_eq_ok]
      exact ⟨hsigned, hrun⟩
    simp only [singleBlock, Block.new, Block.sealed, applyTransactions, List.foldlM_cons,
      List.foldlM_nil, bind_eq_ok, pure_eq_ok]
    exact ⟨l, happly, rfl⟩
  exact ⟨c.singleBlock timestamp producer tx, _, List.mem_singleton.2 rfl,
    applyBlock_eq_ok.2 ⟨rfl, rfl, rfl, l, hexecute, rfl⟩⟩

/-- A transaction that a chain has accepted is useless on every chain with another identifier
exactly if it is a raw Ethereum transaction. -/
theorem not_accepted_elsewhere_iff {c c' : Blockchain} {block : Block} {tx : Transaction}
    (h : c.applyBlock block = .ok c') (htx : tx ∈ block.transactions) :
    (∀ other : Blockchain, other.chainId ≠ c.chainId → ¬other.Accepts tx) ↔
      startsWith tx.signature ethrawMarker = true := by
  obtain ⟨hsigned, l, l', hcap, hrun⟩ := applyBlock_transaction h htx
  constructor
  · intro hnone
    by_contra hnative
    -- The signature check of a native transaction does not read the identifier.
    have hsigned' : ∀ chainId, checkTransactionSignature chainId tx = .ok () := by
      intro chainId
      simp only [checkTransactionSignature, if_neg hnative] at hsigned ⊢
      exact hsigned
    obtain ⟨chainId, hne⟩ : ∃ chainId ∈ [1, 2], chainId ≠ c.chainId := by
      by_cases hone : c.chainId = 1
      · exact ⟨2, by simp, by omega⟩
      · exact ⟨1, by simp, by omega⟩
    -- A chain of the other identifier whose ledger is the one the transaction was executed in.
    have haccepts : ({ withChainId chainId [] with toLedger := l } : Blockchain).Accepts tx :=
      accepts_of_runTransaction (hsigned' chainId) hcap hrun
    exact hnone _ hne.2 haccepts
  · rintro hraw other hother ⟨block', c'', htx', happly'⟩
    have hsigned' := (applyBlock_transaction happly' htx').1
    simp only [checkTransactionSignature, if_pos hraw] at hsigned hsigned'
    exact hother (RawTransaction.verifyEmbedded_chainId hsigned' hsigned)

end Blockchain

/-! ## Snapshot certificates -/

def ConsensusRuntime.signSnapshotAttestation (rt : ConsensusRuntime) (env : Env)
    (snapshot : StateSnapshot) : Except String SnapshotAttestation := do
  let canonical ← okOr (rt.chain.blockByHeight snapshot.height)
    "snapshot 높이의 확정 블록을 찾을 수 없습니다."
  reject (snapshot.blockHash ≠ canonical.hash)
    "canonical 확정 블록과 다른 snapshot에는 서명할 수 없습니다."
  let signature ← env.sign
    (snapshotAttestationBytes snapshot.height snapshot.blockHash snapshot.stateHash)
  pure
    { validatorId := rt.validator, height := snapshot.height, blockHash := snapshot.blockHash
      stateRoot := snapshot.stateHash, signature }

/-- Grown from genesis or from a restored snapshot. -/
def Blockchain.Founded (c : Blockchain) : Prop :=
  ∃ base blocks, (base.IsGenesis ∨ ∃ s, fromSnapshotWithStaking s = .ok base) ∧
    base.applyBlocks blocks = .ok c

/-- Every block hash of the chain has the 64 digits that a restored snapshot must have. -/
def Blockchain.Digested (c : Blockchain) : Prop :=
  ∀ b ∈ c.blocks, (trimHexMarkers b.hash).utf8ByteSize = 64

namespace ConsensusRuntime

/-- A node in any state of any run, whatever it was set up with. -/
def InService (rt : ConsensusRuntime) : Prop :=
  ∃ initial start, start.chain.Founded ∧ Prepared initial start ∧
    Operated (fun _ _ _ => True) start rt

/-- The signer of the node holds the key of its validator. -/
def HoldsKey (rt : ConsensusRuntime) (env : Env) : Prop :=
  ∀ message signature, env.sign message = .ok signature →
    verifySignature rt.validator message signature = .ok ()

end ConsensusRuntime

/-- Every attestation was signed by a node of the chain with this identity and validator set. -/
def SnapshotCertificate.SignedOn (certificate : SnapshotCertificate) (chainId : ℕ)
    (genesisCommitment : String) (validators : List Validator) : Prop :=
  ∀ a ∈ certificate.attestations, ∃ (rt : ConsensusRuntime) (env : Env) (s : StateSnapshot),
    rt.chain.chainId = chainId ∧ rt.chain.genesisCommitment = genesisCommitment ∧
      rt.validators = validators ∧ rt.InService ∧ rt.HoldsKey env ∧
      rt.signSnapshotAttestation env s = .ok a

/-! ### The hashes of a chain -/

namespace Blockchain

theorem digested_of_applyBlock (hdigest : ∀ bytes, (Crypto.sha256 bytes).length = 32)
    {c c' : Blockchain} {block : Block} (h : c.Digested) (happly : c.applyBlock block = .ok c') :
    c'.Digested := by
  obtain ⟨-, -, hhash, l, -, rfl⟩ := applyBlock_eq_ok.1 happly
  intro b hb
  rcases List.mem_append.1 hb with hb | hb
  · exact h b hb
  · rw [List.mem_singleton.1 hb, hhash, Block.calculateHash, sha256Hex, trimHexMarkers_hexEncode,
      utf8ByteSize_hexEncode, hdigest]

omit [Crypto] in
theorem digested_fromSnapshot {s : StateSnapshot} {c : Blockchain}
    (h : fromSnapshotWithStaking s = .ok c) : c.Digested := by
  rw [fromSnapshotWithStaking, check_bind_eq_ok, check_bind_eq_ok, reject_eq_ok, not_not] at h
  obtain ⟨hsize, -, h⟩ := h
  cases h
  intro b hb
  rw [List.mem_singleton.1 hb, trimHexMarkers_trimHexMarkers]
  exact hsize

theorem Founded.digested (hdigest : ∀ bytes, (Crypto.sha256 bytes).length = 32) {c : Blockchain}
    (h : c.Founded) : c.Digested := by
  obtain ⟨base, blocks, hbase, hrun⟩ := h
  refine foldlM_invariant (fun _ _ _ _ hx hxy => digested_of_applyBlock hdigest hx hxy) ?_ hrun
  obtain hgenesis | ⟨s, hs⟩ := hbase
  · obtain ⟨timestamp, hblocks⟩ := hgenesis.blocks
    intro b hb
    rw [hblocks] at hb
    have hhash : b.hash = sha256Hex (Block.genesisAt timestamp).hashPreimage := by
      rw [List.mem_singleton.1 hb]
      rfl
    rw [hhash, sha256Hex, trimHexMarkers_hexEncode, utf8ByteSize_hexEncode, hdigest]
  · exact digested_fromSnapshot hs

end Blockchain

namespace ConsensusRuntime

section
variable {rt : ConsensusRuntime}

theorem digested_perform (hdigest : ∀ bytes, (Crypto.sha256 bytes).length = 32)
    (h : rt.chain.Digested) (env : Env) (op : Operation) :
    (rt.perform env op).chain.Digested := by
  by_cases hop : ∀ snapshot certificate, op ≠ .installCertifiedSnapshot snapshot certificate
  · have hcandidate : rt.Candidate fun _ => True := fun _ _ => trivial
    obtain ⟨hgrown, -⟩ := hcandidate.perform (fun _ _ _ => trivial) hop
    generalize (rt.perform env op).chain = chain at hgrown
    induction hgrown with
    | refl => exact h
    | tail _ hstep ih =>
        obtain ⟨b, -, happly⟩ := hstep
        exact Blockchain.digested_of_applyBlock hdigest ih happly
  · push Not at hop
    obtain ⟨snapshot, certificate, rfl⟩ := hop
    simp only [perform, installCertifiedSnapshot]
    cases hrestored : rt.restoreSnapshot snapshot certificate with
    | error e => exact h
    | ok restored =>
        cases restored with
        | none => exact h
        | some chain =>
            obtain ⟨-, -, -, hfrom, -⟩ := restoreSnapshot_eq_some.1 hrestored
            have hchain := Blockchain.digested_fromSnapshot hfrom
            dsimp only
            split <;> exact hchain

theorem InService.digested (hdigest : ∀ bytes, (Crypto.sha256 bytes).length = 32)
    (h : rt.InService) : rt.chain.Digested := by
  obtain ⟨initial, start, hfounded, hstart, hrun⟩ := h
  clear hstart
  induction hrun with
  | refl => exact hfounded.digested hdigest
  | tail _ hstep ih =>
      obtain ⟨env, op, -, rfl⟩ := hstep
      exact digested_perform hdigest ih env op

/-- The round after a later height can always be started. -/
theorem InService.startable (h : rt.InService) {height : ℕ} (hhigher : rt.chain.tipHeight < height) :
    (rt.consensus.startRound (height + 1) 0).2 = .ok () := by
  obtain ⟨initial, start, -, hstart, hrun⟩ := h
  have hheight := (bounded_operated (bounded_prepared hstart) hrun).height
  rw [BftConsensus.startRound_of_le (.inl (by omega))]

theorem signSnapshotAttestation_eq_ok {env : Env} {s : StateSnapshot} {a : SnapshotAttestation}
    (h : rt.signSnapshotAttestation env s = .ok a) (hkey : rt.HoldsKey env) :
    a.verify = .ok () ∧ ∃ b ∈ rt.chain.blocks, a.blockHash = b.hash := by
  simp only [signSnapshotAttestation, bind_eq_ok, okOr_eq_ok, exists_const, reject_eq_ok,
    not_not, pure_eq_ok] at h
  obtain ⟨canonical, hfound, hhash, signature, hsign, rfl⟩ := h
  exact ⟨hkey _ _ hsign, canonical, List.mem_of_find?_eq_some hfound, hhash⟩

end

end ConsensusRuntime

/-- Attestations from nodes are correctly signed, and name a block hash of the right length. -/
theorem SnapshotCertificate.SignedOn.genuine {certificate : SnapshotCertificate} {chainId : ℕ}
    {genesisCommitment : String} {validators : List Validator}
    (hdigest : ∀ bytes, (Crypto.sha256 bytes).length = 32)
    (h : certificate.SignedOn chainId genesisCommitment validators) :
    ∀ a ∈ certificate.attestations,
      a.verify = .ok () ∧ (trimHexMarkers a.blockHash).utf8ByteSize = 64 := by
  intro a ha
  obtain ⟨rt, env, s, -, -, -, hservice, hkey, hsigned⟩ := h a ha
  obtain ⟨hverify, b, hb, hhash⟩ := ConsensusRuntime.signSnapshotAttestation_eq_ok hsigned hkey
  refine ⟨hverify, ?_⟩
  rw [hhash]
  exact hservice.digested hdigest b hb

/-! ### Certificates from another chain -/

namespace ConsensusRuntime

/-- The snapshot is installed and lifts the chain of the node. -/
def Installs (rt : ConsensusRuntime) (env : Env) (certificate : SnapshotCertificate)
    (s : StateSnapshot) : Prop :=
  rt.AcceptsSnapshot env certificate s ∧
    rt.chain.tipHeight < (rt.installCertifiedSnapshot env s certificate).1.chain.tipHeight

/-- What a node requires of a certificate, apart from the body that comes with it. No item reads
the identity of a chain. -/
structure Usable (rt : ConsensusRuntime) (certificate : SnapshotCertificate) : Prop where
  verified : certificate.verify rt.validators = .ok ()
  higher : rt.chain.tipHeight < certificate.height
  startable : (rt.consensus.startRound (certificate.height + 1) 0).2 = .ok ()
  hashLength : (trimHexMarkers certificate.blockHash).utf8ByteSize = 64
  stateExists : ∃ l : Ledger, l.total ≤ ieumMaxSupply ∧
    Blockchain.stateHash l = certificate.stateRoot

/-- A ledger as a snapshot under the identity of the node. -/
def labelled (rt : ConsensusRuntime) (certificate : SnapshotCertificate) (l : Ledger) :
    StateSnapshot :=
  { chainId := rt.chain.chainId, genesisCommitment := rt.chain.genesisCommitment
    height := certificate.height, blockHash := certificate.blockHash
    stateHash := certificate.stateRoot, balances := l.balances, nextNonces := l.nextNonces
    executedEvents := l.executedEvents, staking := l.staking }

theorem Usable.restoreSnapshot {rt : ConsensusRuntime} {certificate : SnapshotCertificate}
    (h : rt.Usable certificate) :
    ∃ s chain, rt.restoreSnapshot s certificate = .ok (some chain) ∧
      s.height = certificate.height := by
  obtain ⟨l, hcap, hhash⟩ := h.stateExists
  have hfrom : ∃ chain, Blockchain.fromSnapshotWithStaking (rt.labelled certificate l) =
      .ok chain := by
    refine ⟨_, check_bind_eq_ok.2 ⟨?_, check_bind_eq_ok.2
      ⟨validateSupplyCap_eq_ok.2 hcap, rfl⟩⟩⟩
    rw [reject_eq_ok, not_not]
    exact h.hashLength
  obtain ⟨chain, hchain⟩ := hfrom
  refine ⟨rt.labelled certificate l, chain,
    restoreSnapshot_eq_some.2 ⟨?_, ⟨rfl, rfl⟩, h.higher, hchain, ?_⟩, rfl⟩
  · rw [SnapshotCertificate.verifySnapshot, check_bind_eq_ok, reject_eq_ok]
    exact ⟨h.verified, by simp [labelled]⟩
  · rw [(fromSnapshotWithStaking_spec hchain).2]
    exact hhash

theorem Installs.usable {rt : ConsensusRuntime} {env : Env} {certificate : SnapshotCertificate}
    {s : StateSnapshot} (h : rt.Installs env certificate s) : rt.Usable certificate := by
  obtain ⟨haccept, hgrown⟩ := h
  obtain ⟨hheight, ⟨-, hunchanged⟩ | ⟨hlt, hstart, ⟨chain, hrestored⟩, -⟩⟩ := haccept.cases
  · rw [hunchanged] at hgrown
    exact absurd hgrown (lt_irrefl _)
  · obtain ⟨hverify, -, -, hfrom, hhash⟩ := restoreSnapshot_eq_some.1 hrestored
    rw [(fromSnapshotWithStaking_spec hfrom).2] at hhash
    simp only [SnapshotCertificate.verifySnapshot, check_bind_eq_ok, reject_eq_ok, not_or,
      not_not] at hverify
    obtain ⟨hverified, -, hblock, hroot⟩ := hverify
    simp only [Blockchain.fromSnapshotWithStaking, check_bind_eq_ok, reject_eq_ok, not_not]
      at hfrom
    obtain ⟨hlength, hcap, -⟩ := hfrom
    refine ⟨hverified, hheight ▸ hlt, hheight ▸ hstart, hblock ▸ hlength, s.ledger,
      validateSupplyCap_eq_ok.1 hcap, ?_⟩
    rw [hroot]
    exact hhash

theorem Usable.installs {rt : ConsensusRuntime} {certificate : SnapshotCertificate}
    (h : rt.Usable certificate) (env : Env) : ∃ s, rt.Installs env certificate s := by
  obtain ⟨s, chain, hrestored, hheight⟩ := h.restoreSnapshot
  have hstart : (rt.consensus.startRound (s.height + 1) 0).2 = .ok () := by
    rw [hheight]
    exact h.startable
  refine ⟨s, acceptsSnapshot_of_restored hrestored hstart, ?_⟩
  obtain ⟨-, -, hlt, hfrom, -⟩ := restoreSnapshot_eq_some.1 hrestored
  have hchain : (rt.installCertifiedSnapshot env s certificate).1.chain = chain := by
    unfold installCertifiedSnapshot
    rw [hrestored]
    dsimp only
    generalize rt.consensus.startRound (s.height + 1) 0 = started at hstart ⊢
    obtain ⟨c, result⟩ := started
    cases result with
    | error e => cases hstart
    | ok u => rfl
  rw [hchain, (fromSnapshotWithStaking_spec hfrom).1]
  exact hlt

/-- What nodes have signed is usable once enough of them have, for a higher block and a state
that a ledger can have. -/
theorem usable_iff {rt : ConsensusRuntime} {certificate : SnapshotCertificate} {chainId : ℕ}
    {genesisCommitment : String} (hdigest : ∀ bytes, (Crypto.sha256 bytes).length = 32)
    (hwords : ∀ v ∈ rt.validators, v.votingPower ≤ u64Max)
    (hlength : rt.validators.length ≤ u64Max) (hservice : rt.InService)
    (hsigned : certificate.SignedOn chainId genesisCommitment rt.validators) :
    rt.Usable certificate ↔ certificate.Attested rt.validators ∧
      rt.chain.tipHeight < certificate.height ∧
      ∃ l : Ledger, l.total ≤ ieumMaxSupply ∧ Blockchain.stateHash l = certificate.stateRoot := by
  have hgenuine := hsigned.genuine hdigest
  constructor
  · intro h
    exact ⟨((SnapshotCertificate.verify_eq_ok hwords hlength).1 h.verified).2, h.higher,
      h.stateExists⟩
  · rintro ⟨hattested, hhigher, hstate⟩
    have hverified := (SnapshotCertificate.verify_eq_ok hwords hlength).2
      ⟨fun a ha => (hgenuine a ha).1, hattested⟩
    refine ⟨hverified, hhigher, hservice.startable hhigher, ?_, hstate⟩
    -- The block hash is that of any of the attestations, of which there is one.
    obtain ⟨a, ha⟩ : ∃ a, a ∈ certificate.attestations := by
      refine List.exists_mem_of_ne_nil _ fun hnone => ?_
      have hexceeds := hattested.exceeds
      rw [hnone] at hexceeds
      exact absurd hexceeds (Nat.not_lt_zero _)
    have hkey := hattested.keyed a ha
    rw [SnapshotAttestation.key, Prod.mk.injEq, Prod.mk.injEq] at hkey
    rw [← hkey.2.1]
    exact (hgenuine a ha).2

/-- A certificate that nodes of one chain have signed is kept off the nodes of every other chain
exactly if there is no other chain, the signers have no two thirds of the power, the node is past
the height, or no ledger has the certified state. -/
theorem foreign_certificate_useless_iff {rt : ConsensusRuntime}
    {certificate : SnapshotCertificate} {chainId : ℕ} {genesisCommitment : String}
    (hdigest : ∀ bytes, (Crypto.sha256 bytes).length = 32)
    (hwords : ∀ v ∈ rt.validators, v.votingPower ≤ u64Max)
    (hlength : rt.validators.length ≤ u64Max) (hservice : rt.InService)
    (hsigned : certificate.SignedOn chainId genesisCommitment rt.validators) :
    (chainId ≠ rt.chain.chainId ∨ genesisCommitment ≠ rt.chain.genesisCommitment →
        ∀ env s, ¬rt.Installs env certificate s) ↔
      chainId = rt.chain.chainId ∧ genesisCommitment = rt.chain.genesisCommitment ∨
        ¬certificate.Attested rt.validators ∨ certificate.height ≤ rt.chain.tipHeight ∨
        ¬∃ l : Ledger, l.total ≤ ieumMaxSupply ∧
          Blockchain.stateHash l = certificate.stateRoot := by
  have huseless : (∀ env s, ¬rt.Installs env certificate s) ↔ ¬rt.Usable certificate := by
    constructor
    · intro hnone husable
      obtain ⟨s, hs⟩ := husable.installs { unixNow := none, instant := 0, sign := fun _ => .error "" }
      exact hnone _ s hs
    · exact fun hnot env s hinstalls => hnot hinstalls.usable
  rw [huseless, usable_iff hdigest hwords hlength hservice hsigned, not_and_or, not_and_or, not_lt,
    imp_iff_not_or, not_or, not_not, not_not]

end ConsensusRuntime

end

/-! One signed transfer on two chains with the same balances. -/

namespace Sample

local instance replayedCrypto : Crypto := StandIn.crypto StandIn.digest

def twin : Blockchain :=
  Blockchain.withChainId 21004 [(StandIn.address 1, 100), (foundationFeeAddress, 50)]

theorem accepts_transfer {c : Blockchain} (h : c.toLedger = chain.toLedger) :
    c.Accepts transfer := by
  have hsigned : checkTransactionSignature c.chainId transfer = .ok () :=
    StandIn.checkTransactionSignature_signed _ _ _ _ rfl
  obtain ⟨l, hrun⟩ := isOk_iff.1 (by decide : Except.isOk
    (runTransaction (StandIn.address 2) 20 chain.toLedger transfer) = true)
  rw [← h] at hrun
  refine Blockchain.accepts_of_runTransaction hsigned ?_ hrun
  rw [h]
  exact total_chain_le

/-- The transfer is accepted on both chains. -/
theorem transfer_replayed :
    chain.chainId ≠ twin.chainId ∧ chain.Accepts transfer ∧ twin.Accepts transfer :=
  ⟨by decide, accepts_transfer rfl, accepts_transfer rfl⟩

theorem not_accepted_elsewhere_iff_transfer :
    ∃ c', chain.applyBlock block = .ok c' ∧
      ¬∀ other : Blockchain, other.chainId ≠ chain.chainId → ¬other.Accepts transfer := by
  obtain ⟨l, hl⟩ := execute_block
  have happly := Blockchain.applyBlock_eq_ok.2
    ⟨rfl, rfl, Block.withSystemEvents_hash _ _, l, hl, rfl⟩
  refine ⟨_, happly, ?_⟩
  rw [Blockchain.not_accepted_elsewhere_iff happly (List.mem_singleton.2 rfl)]
  have hnative : startsWith transfer.signature ethrawMarker = false := StandIn.startsWith_sign ..
  simp [hnative]

end Sample

/-! The only validator of two chains attests a state of the first one. -/

namespace Lone

open ConsensusRuntime

local instance attestedCrypto : Crypto := StandIn.crypto StandIn.digest

def elsewhere : Blockchain := Blockchain.withChainId 21004 []

def attested (c : Blockchain) : SnapshotAttestation :=
  { validatorId := self, height := 1, blockHash := c.tipHash
    stateRoot := Blockchain.stateHash c.toLedger
    signature := StandIn.sign 1
      (snapshotAttestationBytes 1 c.tipHash (Blockchain.stateHash c.toLedger)) }

def attestedCertificate (c : Blockchain) : SnapshotCertificate :=
  { height := 1, blockHash := c.tipHash, stateRoot := Blockchain.stateHash c.toLedger
    attestations := [attested c] }

theorem grown : ∃ c, chain.applyBlock block = .ok c := isOk_iff.1 (by decide +kernel)

theorem started_exists (c : Blockchain) : ∃ rt, started c = .ok rt := by
  obtain ⟨consensus, hconsensus⟩ := validatorSet.accepted
  simp only [started, withSigner, bind_eq_ok]
  exact ⟨_, consensus, hconsensus, rfl⟩

theorem signSnapshotAttestation_grown {c : Blockchain} {rt : ConsensusRuntime}
    (hc : chain.applyBlock block = .ok c) (hrt : started c = .ok rt) :
    rt.signSnapshotAttestation env (StateSnapshot.fromChain c) = .ok (attested c) := by
  obtain ⟨-, -, -, l, -, rfl⟩ := Blockchain.applyBlock_eq_ok.1 hc
  simp only [started, withSigner, bind_eq_ok, pure_eq_ok] at hrt
  obtain ⟨consensus, -, rfl⟩ := hrt
  have hfound : (chain.push l block).blockByHeight (chain.push l block).tipHeight = some block := by
    rw [Blockchain.tipHeight, Blockchain.tip_push]
    rfl
  have hhash : (StateSnapshot.fromChain (chain.push l block)).blockHash = block.hash := by
    rw [StateSnapshot.fromChain, Blockchain.tipHash, Blockchain.tip_push]
  have hheight : (chain.push l block).tipHeight = 1 := by
    rw [Blockchain.tipHeight, Blockchain.tip_push]
    rfl
  simp only [signSnapshotAttestation, bind_eq_ok, okOr_eq_ok, exists_const, reject_eq_ok, not_not]
  refine ⟨block, hfound, hhash, _, rfl, ?_⟩
  simp only [attested, StateSnapshot.fromChain, hheight]
  rfl

theorem isGenesis_elsewhere : elsewhere.IsGenesis := Blockchain.isGenesis_withChainId _ _

theorem founded_of_applyBlock {g c : Blockchain} (hg : g.IsGenesis) (h : g.applyBlock block = .ok c) :
    c.Founded := ⟨g, [block], .inl hg, Blockchain.applyBlocks_cons.2 ⟨c, h, rfl⟩⟩

theorem inService_started {c : Blockchain} {rt : ConsensusRuntime} (hc : c.Founded)
    (hrt : started c = .ok rt) : rt.InService := by
  have hprepared : Prepared validatorSet.validators rt :=
    ⟨c, self, ⟨1, 1, 1⟩, 0, rt, _, _, _, _, _, hrt, rfl⟩
  rw [← (started_spec hrt).1] at hc
  exact ⟨_, rt, hc, hprepared, .refl⟩

theorem holdsKey_started {c : Blockchain} {rt : ConsensusRuntime} (hrt : started c = .ok rt) :
    rt.HoldsKey env := by
  simp only [started, withSigner, bind_eq_ok, pure_eq_ok] at hrt
  obtain ⟨consensus, -, rfl⟩ := hrt
  rintro message signature ⟨⟩
  exact StandIn.verifySignature_sign _ 1 _

theorem signedOn_attested {c : Blockchain} {rt : ConsensusRuntime}
    (hc : chain.applyBlock block = .ok c) (hrt : started c = .ok rt) :
    (attestedCertificate c).SignedOn 21005 rt.chain.genesisCommitment rt.validators := by
  have hidentity : rt.chain.chainId = 21005 := by
    obtain ⟨-, -, -, l, -, rfl⟩ := Blockchain.applyBlock_eq_ok.1 hc
    rw [(started_spec hrt).1]
    rfl
  have hservice :=
    inService_started (founded_of_applyBlock (Blockchain.isGenesis_withChainId _ _) hc) hrt
  intro a ha
  obtain rfl : a = attested c := List.mem_singleton.1 ha
  exact ⟨rt, env, _, hidentity, rfl, rfl, hservice, holdsKey_started hrt,
    signSnapshotAttestation_grown hc hrt⟩

theorem attested_alone (c : Blockchain) : (attestedCertificate c).Attested [⟨self, 1⟩] := by
  have hpower : powerOfIds [⟨self, 1⟩] {self} = 1 := by
    rw [powerOfIds, Finset.sum_singleton]
    exact getD_insert_self ..
  refine ⟨?_, ?_, ?_⟩
  · intro vote hvote
    rw [List.mem_singleton.1 hvote]
    rfl
  · intro vote hvote
    rw [List.mem_singleton.1 hvote]
    exact ⟨⟨self, 1⟩, List.mem_singleton_self _, rfl⟩
  · show listedPower [⟨self, 1⟩] * 2 < powerOfIds [⟨self, 1⟩] {self} * 3
    rw [hpower]
    decide

theorem state_exists {c : Blockchain} (hc : chain.applyBlock block = .ok c) :
    ∃ l : Ledger, l.total ≤ ieumMaxSupply ∧
      Blockchain.stateHash l = (attestedCertificate c).stateRoot := by
  have hempty : chain.total = 0 := rfl
  refine ⟨c.toLedger, ?_, rfl⟩
  rw [applyBlock_total hc, hempty]
  exact Nat.zero_le _

/-- The state of the first chain is installed on the second one. -/
theorem certificate_crosses :
    ∃ c rt rt' s, chain.applyBlock block = .ok c ∧ started c = .ok rt ∧
      started elsewhere = .ok rt' ∧ rt.validators = rt'.validators ∧
      rt.chain.chainId ≠ rt'.chain.chainId ∧
      rt.signSnapshotAttestation env (StateSnapshot.fromChain c) = .ok (attested c) ∧
      rt'.Installs env (attestedCertificate c) s := by
  obtain ⟨c, hc⟩ := grown
  obtain ⟨rt, hrt⟩ := started_exists c
  obtain ⟨rt', hrt'⟩ := started_exists elsewhere
  obtain ⟨hchain, hvalidators, -⟩ := started_spec hrt
  obtain ⟨hchain', hvalidators', -⟩ := started_spec hrt'
  have hsigned := signedOn_attested hc hrt
  have hservice := inService_started ⟨elsewhere, [], .inl isGenesis_elsewhere, rfl⟩ hrt'
  have husable : rt'.Usable (attestedCertificate c) := by
    rw [hvalidators, ← hvalidators'] at hsigned
    refine (usable_iff (fun _ => StandIn.length_digest _) ?_ ?_ hservice hsigned).2 ⟨?_, ?_, ?_⟩
    · rw [hvalidators']
      decide
    · rw [hvalidators']
      decide
    · rw [hvalidators']
      exact attested_alone c
    · rw [hchain']
      exact Nat.zero_lt_one
    · exact state_exists hc
  obtain ⟨s, hs⟩ := husable.installs env
  refine ⟨c, rt, rt', s, hc, hrt, hrt', hvalidators.trans hvalidators'.symm, ?_,
    signSnapshotAttestation_grown hc hrt, hs⟩
  obtain ⟨-, -, -, l, -, rfl⟩ := Blockchain.applyBlock_eq_ok.1 hc
  rw [hchain, hchain']
  exact (by decide : (21005 : ℕ) ≠ 21004)

theorem grown_elsewhere : ∃ c, elsewhere.applyBlock block = .ok c := isOk_iff.1 (by decide +kernel)

/-- The certificate is of use to a node of the second chain at genesis, and of none once the
node has a block of its own. -/
theorem foreign_certificate_useless_iff_attested :
    ∃ c c' rt rt', chain.applyBlock block = .ok c ∧ started elsewhere = .ok rt ∧
      elsewhere.applyBlock block = .ok c' ∧ started c' = .ok rt' ∧
      (¬∀ env s, ¬rt.Installs env (attestedCertificate c) s) ∧
      ∀ env s, ¬rt'.Installs env (attestedCertificate c) s := by
  obtain ⟨c, hc⟩ := grown
  obtain ⟨c', hc'⟩ := grown_elsewhere
  obtain ⟨signer, hsigner⟩ := started_exists c
  obtain ⟨rt, hrt⟩ := started_exists elsewhere
  obtain ⟨rt', hrt'⟩ := started_exists c'
  obtain ⟨-, hvalidators, -⟩ := started_spec hsigner
  obtain ⟨hchain, hvalidators₁, -⟩ := started_spec hrt
  obtain ⟨hchain', hvalidators₂, -⟩ := started_spec hrt'
  have hsigned := signedOn_attested hc hsigner
  have hservice := inService_started ⟨elsewhere, [], .inl isGenesis_elsewhere, rfl⟩ hrt
  have hservice' := inService_started (founded_of_applyBlock isGenesis_elsewhere hc') hrt'
  have hother : (21005 : ℕ) ≠ rt.chain.chainId := by
    rw [hchain]
    decide
  have hother' : (21005 : ℕ) ≠ rt'.chain.chainId := by
    obtain ⟨-, -, -, l, -, rfl⟩ := Blockchain.applyBlock_eq_ok.1 hc'
    rw [hchain']
    exact (by decide : (21005 : ℕ) ≠ 21004)
  have hwords : ∀ v ∈ ([⟨self, 1⟩] : List Validator), v.votingPower ≤ u64Max := by decide
  have hlength : ([⟨self, 1⟩] : List Validator).length ≤ u64Max := by decide
  refine ⟨c, c', rt, rt', hc, hrt, hc', hrt', fun hnone => ?_, ?_⟩
  · rw [hvalidators, ← hvalidators₁] at hsigned
    rw [← hvalidators₁] at hwords hlength
    rcases (foreign_certificate_useless_iff (fun _ => StandIn.length_digest _) hwords hlength
      hservice hsigned).1 (fun _ => hnone) with ⟨hsame, -⟩ | hattested | hheight | hstate
    · exact hother hsame
    · rw [hvalidators₁] at hattested
      exact hattested (attested_alone c)
    · rw [hchain] at hheight
      exact absurd hheight (Nat.not_le.2 Nat.zero_lt_one)
    · exact hstate (state_exists hc)
  · rw [hvalidators, ← hvalidators₂] at hsigned
    rw [← hvalidators₂] at hwords hlength
    refine (foreign_certificate_useless_iff (fun _ => StandIn.length_digest _) hwords hlength
      hservice' hsigned).2 (.inr (.inr (.inl ?_))) (.inl hother')
    rw [hchain', Blockchain.tipHeight_applyBlock hc']
    exact le_rfl

end Lone

end IeumChain
