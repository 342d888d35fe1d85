import IeumChain.ArchiveHistory
import IeumChain.ExecutedEvents

/-!
# Certificates that arrive again

A node compares a certificate for a height it has passed with the block it has there. A restart
and a snapshot leave one block in memory, and below it there is nothing to compare with: the
certificate is an error and not a repetition.
-/
namespace IeumChain

open ByteCodec Text Outcome MachineWords FiniteMap VoteTally

namespace Blockchain

/-- The height of the oldest block in memory. -/
def firstHeight (c : Blockchain) : ℕ := (c.blocks.head c.blocks_ne_nil).height

/-- The blocks in memory have consecutive heights. -/
structure Linked (c : Blockchain) : Prop where
  heights : c.blocks.map Block.height = List.range' c.firstHeight c.blocks.length
  tip : c.tipHeight + 1 = c.firstHeight + c.blocks.length

theorem linked_of_singleton {c : Blockchain} {b : Block} (h : c.blocks = [b]) : c.Linked := by
  have hfirst : c.firstHeight = b.height := by
    simp only [firstHeight, h, List.head_cons]
  have htip : c.tipHeight = b.height := by
    simp only [tipHeight, Blockchain.tip, h, List.getLast_singleton]
  constructor
  · rw [hfirst, h]
    rfl
  · rw [hfirst, htip, h]
    rfl

theorem Linked.mem_iff {c : Blockchain} (h : c.Linked) {height : ℕ} :
    (∃ b ∈ c.blocks, b.height = height) ↔ c.firstHeight ≤ height ∧ height ≤ c.tipHeight := by
  have hmem : (∃ b ∈ c.blocks, b.height = height) ↔ height ∈ c.blocks.map Block.height := by
    rw [List.mem_map]
  have htip := h.tip
  rw [hmem, h.heights, List.mem_range'_1]
  omega

/-- A block is found exactly at the heights from the oldest block in memory to the tip. -/
theorem Linked.blockByHeight_iff {c : Blockchain} (h : c.Linked) {height : ℕ}
    (htip : height ≤ c.tipHeight) :
    (∃ b, c.blockByHeight height = some b) ↔ c.firstHeight ≤ height := by
  have hfound : (∃ b, c.blockByHeight height = some b) ↔ ∃ b ∈ c.blocks, b.height = height := by
    rw [← Option.isSome_iff_exists, blockByHeight, List.find?_isSome]
    simp only [decide_eq_true_eq]
  rw [hfound, h.mem_iff]
  exact and_iff_left htip

theorem mem_of_blockByHeight {c : Blockchain} {height : ℕ} {b : Block}
    (h : c.blockByHeight height = some b) : b ∈ c.blocks ∧ b.height = height :=
  ⟨List.mem_of_find?_eq_some h, by simpa using List.find?_some h⟩

section
variable [Crypto]

theorem Linked.applyBlock {c c' : Blockchain} {block : Block} (h : c.Linked)
    (happly : c.applyBlock block = .ok c') : c'.Linked := by
  obtain ⟨hheight, -, -, l, -, rfl⟩ := applyBlock_eq_ok.1 happly
  have hfirst : (c.push l block).firstHeight = c.firstHeight := by
    simp only [firstHeight, push, List.head_append_of_ne_nil c.blocks_ne_nil]
  have htip := h.tip
  constructor
  · rw [hfirst]
    simp only [push, List.map_append, List.map_cons, List.map_nil, List.length_append,
      List.length_cons, List.length_nil, Nat.zero_add, List.range'_1_concat, h.heights]
    rw [hheight, htip]
  · rw [hfirst]
    simp only [tipHeight, tip_push]
    simp only [push, List.length_append, List.length_cons, List.length_nil]
    omega

theorem Linked.applyBlocks {c c' : Blockchain} {blocks : List Block} (h : c.Linked)
    (happly : c.applyBlocks blocks = .ok c') : c'.Linked :=
  foldlM_invariant (P := Linked) (fun _ _ _ _ hx hxy => hx.applyBlock hxy) h happly

theorem Linked.grown {P : Block → Prop} {c c' : Blockchain} (h : c.Linked)
    (hgrown : Relation.ReflTransGen (fun c c' => ∃ b, P b ∧ c.applyBlock b = .ok c') c c') :
    c'.Linked := by
  induction hgrown with
  | refl => exact h
  | tail _ hstep ih =>
      obtain ⟨b, -, happly⟩ := hstep
      exact ih.applyBlock happly

omit [Crypto] in
theorem linked_fromSnapshot {s : StateSnapshot} {c : Blockchain}
    (h : fromSnapshotWithStaking s = .ok c) : c.Linked := by
  simp only [fromSnapshotWithStaking, check_bind_eq_ok, pure_eq_ok] at h
  obtain ⟨-, -, rfl⟩ := h
  exact linked_of_singleton rfl

theorem linked_restoreState {g c : Blockchain} {s : StateSnapshot}
    {wrongChain wrongGenesis wrongRoot : String}
    (h : Disk.restoreState g s wrongChain wrongGenesis wrongRoot = .ok c) : c.Linked := by
  rw [Disk.restoreState, check_bind_eq_ok, check_bind_eq_ok, bind_eq_ok] at h
  obtain ⟨-, -, chain, hchain, h⟩ := h
  rw [check_bind_eq_ok, pure_eq_ok] at h
  obtain ⟨-, rfl⟩ := h
  exact linked_fromSnapshot hchain

theorem IsGenesis.linked {g : Blockchain} (hg : g.IsGenesis) : g.Linked := by
  obtain ⟨timestamp, hblocks⟩ := hg.blocks
  exact linked_of_singleton hblocks

/-- Whatever a start finds, its chain is linked. -/
theorem linked_restore {g c : Blockchain} (hg : g.IsGenesis) {d : Disk}
    (h : d.restore g = .ok c) : c.Linked := by
  obtain ⟨state, checkpoint, activeBlocks, archivedBlocks⟩ := d
  cases state with
  | some state => exact linked_restoreState h
  | none =>
      cases checkpoint with
      | none => exact hg.linked.applyBlocks h
      | some snapshot =>
          simp only [Disk.restore, bind_eq_ok] at h
          obtain ⟨chain, hchain, happly⟩ := h
          exact (linked_restoreState hchain).applyBlocks happly

end

end Blockchain

/-! ## Nodes in all their lifetimes -/

namespace Lifetimes

open ConsensusRuntime

section
variable [Crypto]

/-- Restarts begin with a genesis chain, whatever else they find. -/
def FromGenesis (_ : Lifetimes) : Event → Prop
  | .restart genesis _ _ _ _ => genesis.IsGenesis
  | .operation _ _ => True

/-- A first start on a genesis chain. -/
def StartedNew (l : Lifetimes) : Prop :=
  l.accepted = [] ∧ ∃ chain validators self timeouts instant, chain.IsGenesis ∧
    withSigner chain validators self timeouts instant = .ok l.node

omit [Crypto] in
theorem chain_withSigner {chain : Blockchain} {validators : List Validator} {self : String}
    {timeouts : ConsensusTimeouts} {instant : ℕ} {rt : ConsensusRuntime}
    (h : withSigner chain validators self timeouts instant = .ok rt) : rt.chain = chain := by
  simp only [withSigner, bind_eq_ok, pure_eq_ok] at h
  obtain ⟨c, -, rfl⟩ := h
  rfl

theorem linked_installCertifiedSnapshot {rt : ConsensusRuntime} (h : rt.chain.Linked) (env : Env)
    (snapshot : StateSnapshot) (certificate : SnapshotCertificate) :
    (rt.installCertifiedSnapshot env snapshot certificate).1.chain.Linked := by
  unfold installCertifiedSnapshot
  cases hrestored : rt.restoreSnapshot snapshot certificate with
  | error e => exact h
  | ok restored =>
      cases restored with
      | none => exact h
      | some chain =>
          obtain ⟨-, -, -, hfrom, -⟩ := restoreSnapshot_eq_some.1 hrestored
          have hlinked := Blockchain.linked_fromSnapshot hfrom
          dsimp only
          generalize rt.consensus.startRound (snapshot.height + 1) 0 = result
          obtain ⟨consensus, outcome⟩ := result
          cases outcome <;> exact hlinked

theorem linked_perform {rt : ConsensusRuntime} (h : rt.chain.Linked) (env : Env) (op : Operation) :
    (rt.perform env op).chain.Linked := by
  by_cases hop : ∃ snapshot certificate, op = .installCertifiedSnapshot snapshot certificate
  · obtain ⟨snapshot, certificate, rfl⟩ := hop
    exact linked_installCertifiedSnapshot h env snapshot certificate
  · push Not at hop
    have hcandidate : rt.Candidate fun _ => True := fun _ _ => trivial
    exact h.grown (hcandidate.perform (fun _ _ _ => trivial) hop).chain

theorem linked_step {l l' : Lifetimes} (h : l.node.chain.Linked) {e : Event}
    (hgenesis : FromGenesis l e) (hstep : l.step e = .ok l') : l'.node.chain.Linked := by
  cases e with
  | operation env op =>
      have hnode : l'.node = l.node.perform env op := by
        cases op <;> cases hstep <;> rfl
      rw [hnode]
      exact linked_perform h env op
  | restart genesis disk validators timeouts instant =>
      simp only [Lifetimes.step, bind_eq_ok, pure_eq_ok] at hstep
      obtain ⟨chain, hchain, node, hnode, rfl⟩ := hstep
      rw [chain_withSigner hnode]
      exact Blockchain.linked_restore hgenesis hchain

theorem linked_of_run {l l' : Lifetimes} (hstart : StartedNew l) (hrun : Run FromGenesis l l') :
    l'.node.chain.Linked := by
  induction hrun with
  | refl =>
      obtain ⟨-, chain, validators, self, timeouts, instant, hg, hnode⟩ := hstart
      rw [chain_withSigner hnode]
      exact hg.linked
  | tail _ hgenesis hstep ih => exact linked_step ih hgenesis hstep

/-! ## Certificates for known heights -/

/-- Certificates for heights up to the tip that pass verification, with the hash of the block
at each height where the node has one. -/
structure Redelivered (rt : ConsensusRuntime) (certificates : List FinalityCertificate) : Prop where
  verified : ∀ c ∈ certificates, c.verify rt.validators = .ok ()
  passed : ∀ c ∈ certificates, c.block.height ≤ rt.chain.tipHeight
  agrees : ∀ c ∈ certificates, ∀ b ∈ rt.chain.blocks, b.height = c.block.height →
    b.hash = c.block.hash

variable {rt : ConsensusRuntime} {env : Env} {certificates : List FinalityCertificate}

/-- One such certificate is passed over, or is an error, by where its height is. -/
theorem applySyncCertificate_passed (env : Env) (hlinked : rt.chain.Linked) {c : FinalityCertificate}
    (hverify : c.verify rt.validators = .ok ()) (hpassed : c.block.height ≤ rt.chain.tipHeight)
    (hagrees : ∀ b ∈ rt.chain.blocks, b.height = c.block.height → b.hash = c.block.hash) :
    rt.applySyncCertificate env c =
      if rt.chain.firstHeight ≤ c.block.height then .ok (rt, false)
      else .error "기존 canonical 블록을 찾을 수 없습니다." := by
  have hbelow : c.block.height < rt.chain.tipHeight + 1 := Nat.lt_succ_of_le hpassed
  split_ifs with hfirst
  · obtain ⟨b, hb⟩ := (hlinked.blockByHeight_iff hpassed).2 hfirst
    obtain ⟨hmem, hheight⟩ := Blockchain.mem_of_blockByHeight hb
    have hhash := hagrees b hmem hheight
    simp [applySyncCertificate, hverify, hbelow, hb, okOr, reject, hhash]
  · have hnone : rt.chain.blockByHeight c.block.height = none := by
      rw [Option.eq_none_iff_forall_ne_some]
      intro b hb
      exact hfirst ((hlinked.blockByHeight_iff hpassed).1 ⟨b, hb⟩)
    simp only [applySyncCertificate, hverify, hbelow, hnone, okOr, if_true]
    rfl

theorem applySyncLoop_redelivered (hlinked : rt.chain.Linked) (h : Redelivered rt certificates) :
    applySyncLoop env certificates rt 0 = (rt, .ok 0) ↔
      ∀ c ∈ certificates, rt.chain.firstHeight ≤ c.block.height := by
  induction certificates with
  | nil => simp [applySyncLoop]
  | cons c rest ih =>
      obtain ⟨hverified, hpassed, hagrees⟩ := h
      rw [List.forall_mem_cons] at hverified hpassed hagrees
      have hone := applySyncCertificate_passed env hlinked hverified.1 hpassed.1 hagrees.1
      rw [List.forall_mem_cons, applySyncLoop, hone]
      split_ifs with hfirst
      · simp only [hfirst, true_and, Bool.false_eq_true, if_false]
        exact ih ⟨hverified.2, hpassed.2, hagrees.2⟩
      · simp [hfirst]

theorem applySyncCertificates_iff :
    rt.applySyncCertificates env certificates = (rt, .ok 0) ↔
      applySyncLoop env certificates rt 0 = (rt, .ok 0) := by
  rw [applySyncCertificates]
  generalize applySyncLoop env certificates rt 0 = result
  obtain ⟨rt', outcome⟩ := result
  cases outcome with
  | error e => exact Iff.rfl
  | ok applied =>
      by_cases happlied : applied = 0
      · simp only [happlied, if_true]
      · have hcount : ∀ r : ConsensusRuntime × Except String Unit,
            (r.1, r.2.map fun _ => applied) ≠ (rt, .ok 0) := by
          rintro ⟨rt, outcome⟩ h
          cases outcome with
          | error e => cases (Prod.mk.inj h).2
          | ok _ => exact happlied (Except.ok.inj (Prod.mk.inj h).2)
        simp only [happlied, if_false, hcount, Prod.mk.injEq, Except.ok.injEq, and_false]

/-- Certificates that arrive again change nothing exactly when none of them is for a height below
the oldest block in memory. -/
theorem redelivered_idempotent_iff {l l' : Lifetimes} (hstart : StartedNew l)
    (hrun : Run FromGenesis l l') (env : Env) {certificates : List FinalityCertificate}
    (h : Redelivered l'.node certificates) :
    l'.node.applySyncCertificates env certificates = (l'.node, .ok 0) ↔
      ∀ c ∈ certificates, l'.node.chain.firstHeight ≤ c.block.height := by
  rw [applySyncCertificates_iff]
  exact applySyncLoop_redelivered (linked_of_run hstart hrun) h

end

end Lifetimes

namespace Lone

open ConsensusRuntime Lifetimes

local instance redeliveredCrypto : Crypto := StandIn.crypto StandIn.digest

theorem startedNew_fresh : fresh.StartedNew :=
  ⟨rfl, chain, _, _, _, _, Blockchain.isGenesis_withChainId _ _, eq_ok_get started_ok⟩

/-- Two blocks, and a restart after each. -/
theorem restarted_twice :
    ∃ l₁ l₂ l₃ l₄, fresh.step (sync block) = .ok l₁ ∧
      l₁.step (restartFrom l₁.node.chain) = .ok l₂ ∧
      l₂.step (sync (secondBlock 7)) = .ok l₃ ∧ l₃.step (restartFrom l₃.node.chain) = .ok l₄ ∧
      (l₂.node.chain.blocks.map fun b => (b.height, b.hash)) = [(1, block.hash)] ∧
      (l₄.node.chain.blocks.map fun b => (b.height, b.hash)) = [(2, (secondBlock 7).hash)] ∧
      l₄.accepted = [secondBlock 7, block] ∧
      (certificateFor block).verify l₂.node.validators = .ok () ∧
      (certificateFor block).verify l₄.node.validators = .ok () := by
  obtain ⟨u, h⟩ := isOk_iff.1 (by decide +kernel : Except.isOk (do
    let l₁ ← fresh.step (sync block)
    let l₂ ← l₁.step (restartFrom l₁.node.chain)
    let l₃ ← l₂.step (sync (secondBlock 7))
    let l₄ ← l₃.step (restartFrom l₃.node.chain)
    reject ((l₂.node.chain.blocks.map fun b => (b.height, b.hash)) ≠ [(1, block.hash)] ∨
      (l₄.node.chain.blocks.map fun b => (b.height, b.hash)) ≠ [(2, (secondBlock 7).hash)] ∨
      l₄.accepted ≠ [secondBlock 7, block]) ""
    (certificateFor block).verify l₂.node.validators
    (certificateFor block).verify l₄.node.validators) = true)
  simp only [bind_eq_ok, reject_eq_ok, not_or, not_not] at h
  obtain ⟨l₁, h₁, l₂, h₂, l₃, h₃, l₄, h₄, _, ⟨hfirst, hsecond, haccepted⟩, ⟨⟩, hverify,
    hverify'⟩ := h
  exact ⟨l₁, l₂, l₃, l₄, h₁, h₂, h₃, h₄, hfirst, hsecond, haccepted, hverify, hverify'⟩

/-- A node that restarted on an anchor, and the certificate of the first block. -/
theorem redelivered_of_anchor {rt : ConsensusRuntime} {height : ℕ} {hash : String}
    (hblocks : (rt.chain.blocks.map fun b => (b.height, b.hash)) = [(height, hash)])
    (hverify : (certificateFor block).verify rt.validators = .ok ()) (hle : 1 ≤ height)
    (hhash : height = 1 → hash = block.hash) :
    rt.chain.firstHeight = height ∧ Redelivered rt [certificateFor block] := by
  obtain ⟨b, hb, hpair⟩ := List.map_eq_singleton_iff.1 hblocks
  obtain ⟨hheight, hbhash⟩ := Prod.mk.inj hpair
  have hfirst : rt.chain.firstHeight = height := by
    simp only [Blockchain.firstHeight, hb, List.head_cons, hheight]
  have htip : rt.chain.tipHeight = height := by
    simp only [Blockchain.tipHeight, Blockchain.tip, hb, List.getLast_singleton, hheight]
  refine ⟨hfirst, ?_, ?_, ?_⟩ <;> intro c hc <;> rw [List.mem_singleton.1 hc]
  · exact hverify
  · exact htip.symm ▸ hle
  · intro b' hb' heq
    rw [hb, List.mem_singleton] at hb'
    rw [hb', hbhash]
    exact hhash (hheight.symm.trans (hb' ▸ heq))

/-- The certificate of the block that the node is anchored at changes nothing. -/
theorem redelivered_idempotent_iff_anchor :
    ∃ l, Run FromGenesis fresh l ∧ Redelivered l.node [certificateFor block] ∧
      l.node.applySyncCertificates env [certificateFor block] = (l.node, .ok 0) := by
  obtain ⟨l₁, l₂, -, -, h₁, h₂, -, -, hblocks, -, -, hverify, -⟩ := restarted_twice
  obtain ⟨hfirst, hredelivered⟩ := redelivered_of_anchor hblocks hverify le_rfl fun _ => rfl
  have hgenesis : l₁.FromGenesis (restartFrom l₁.node.chain) :=
    Blockchain.isGenesis_withChainId 21005 []
  have hrun : Run FromGenesis fresh l₂ := ((Run.refl _).tail trivial h₁).tail hgenesis h₂
  refine ⟨l₂, hrun, hredelivered,
    (redelivered_idempotent_iff startedNew_fresh hrun env hredelivered).2 fun c hc => ?_⟩
  rw [List.mem_singleton.1 hc, hfirst]
  exact le_rfl

/-- The node has finalized both blocks and restarted. The certificate of the first one is now an
error. -/
theorem first_certificate_refused :
    fresh.StartedNew ∧ ∃ l, Run FromGenesis fresh l ∧ Redelivered l.node [certificateFor block] ∧
      l.accepted = [secondBlock 7, block] ∧
      l.node.applySyncCertificates env [certificateFor block] =
        (l.node, .error "기존 canonical 블록을 찾을 수 없습니다.") := by
  obtain ⟨l₁, l₂, l₃, l₄, h₁, h₂, h₃, h₄, -, hblocks, haccepted, -, hverify⟩ := restarted_twice
  obtain ⟨hfirst, hredelivered⟩ :=
    redelivered_of_anchor hblocks hverify (by decide) fun h => absurd h (by decide)
  have hgenesis : ∀ l l' : Lifetimes, l.FromGenesis (restartFrom l'.node.chain) :=
    fun _ _ => Blockchain.isGenesis_withChainId 21005 []
  have hsync : l₂.FromGenesis (sync (secondBlock 7)) := trivial
  have hrun : Run FromGenesis fresh l₄ :=
    ((((Run.refl _).tail trivial h₁).tail (hgenesis _ _) h₂).tail hsync h₃).tail (hgenesis _ _) h₄
  refine ⟨startedNew_fresh, l₄, hrun, hredelivered, haccepted, ?_⟩
  have hone := applySyncCertificate_passed env (linked_of_run startedNew_fresh hrun)
    (hredelivered.verified _ (List.mem_singleton_self _))
    (hredelivered.passed _ (List.mem_singleton_self _))
    (hredelivered.agrees _ (List.mem_singleton_self _))
  rw [if_neg (by rw [hfirst]; decide)] at hone
  rw [applySyncCertificates, applySyncLoop, hone]

end Lone

end IeumChain
