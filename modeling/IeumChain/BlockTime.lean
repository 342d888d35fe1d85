import IeumChain.Heights

/-!
# Block times over several lifetimes

A node with the blocks it has finalized or synced, through snapshot installations and
restarts from disk. A block is compared with the last block object in memory, and a
restart or a snapshot puts an anchor of time zero there. Block times stay in order as
long as the first block after such an anchor is not earlier than the block the node
had accepted at the anchor's height.
-/
namespace IeumChain

open Outcome

/-- What a start finds on disk. -/
structure Disk where
  state : Option StateSnapshot
  checkpoint : Option StateSnapshot
  activeBlocks : List Block
  archivedBlocks : List Block

namespace Disk

section
variable [Crypto]

/-- The chain that starts at a stored state of this network. -/
def restoreState (genesis : Blockchain) (s : StateSnapshot)
    (wrongChain wrongGenesis wrongRoot : String) : Except String Blockchain := do
  reject (s.chainId ≠ genesis.chainId) wrongChain
  reject (s.genesisCommitment ≠ genesis.genesisCommitment) wrongGenesis
  let chain ← Blockchain.fromSnapshotWithStaking s
  reject (Blockchain.stateHash chain.toLedger ≠ s.stateHash) wrongRoot
  pure chain

/-- The committed state first, then the last checkpoint with the blocks since, then all blocks
from genesis on. The source stops where this fails. -/
def restore (genesis : Blockchain) (d : Disk) : Except String Blockchain :=
  match d.state, d.checkpoint with
  | some state, _ =>
      restoreState genesis state "embedded DB chain ID 불일치"
        "embedded DB Genesis hash 불일치: 기존 원장을 백업한 뒤 새 메인넷 원장으로 시작하세요"
        "embedded DB state root 불일치"
  | none, some snapshot => do
      let chain ← restoreState genesis snapshot "체크포인트 chain ID 불일치"
        "체크포인트 Genesis hash 불일치: 다른 네트워크의 체크포인트를 사용할 수 없습니다"
        "체크포인트 상태 해시 불일치"
      chain.applyBlocks d.activeBlocks
  | none, none => genesis.applyBlocks (d.archivedBlocks.filter fun b => 0 < b.height)

end

end Disk

/-- A node with the blocks it has finalized or synced in all its lifetimes, the last one first. -/
structure Lifetimes where
  node : ConsensusRuntime
  accepted : List Block

namespace Lifetimes

open ConsensusRuntime

inductive Event
  | operation (env : Env) (op : Operation)
  | restart (genesis : Blockchain) (disk : Disk) (validators : List Validator)
      (timeouts : ConsensusTimeouts) (instant : ℕ)

/-- The block accepted last at the height below that of a block. -/
def predecessor (accepted : List Block) (block : Block) : Option Block :=
  accepted.find? fun b => b.height + 1 = block.height

/-- No block is earlier than the one accepted before it at the preceding height. -/
def TimesInOrder (accepted : List Block) : Prop :=
  ∀ later block earlier, accepted = later ++ block :: earlier →
    ∀ b, predecessor earlier block = some b → b.timestamp ≤ block.timestamp

section
variable [Crypto]

/-- Blocks that join the chain were accepted; a snapshot and a restart only replace the chain. -/
def step (l : Lifetimes) : Event → Except String Lifetimes
  | .operation env (.installCertifiedSnapshot snapshot certificate) =>
      .ok { l with node := l.node.perform env (.installCertifiedSnapshot snapshot certificate) }
  | .operation env op =>
      let node := l.node.perform env op
      let joined := node.chain.blocks.drop l.node.chain.blocks.length
      .ok { node, accepted := joined.reverse ++ l.accepted }
  | .restart genesis disk validators timeouts instant => do
      let chain ← disk.restore genesis
      let node ← withSigner chain validators l.node.validator timeouts instant
      pure { l with node := { node with signed := l.node.signed } }

inductive Run (allowed : Lifetimes → Event → Prop) : Lifetimes → Lifetimes → Prop
  | refl (l : Lifetimes) : Run allowed l l
  | tail {l l' l'' : Lifetimes} {e : Event} (h : Run allowed l l') (hallowed : allowed l' e)
      (hstep : l'.step e = .ok l'') : Run allowed l l''

def Started (l : Lifetimes) : Prop :=
  l.accepted = [] ∧ ∃ chain validators self timeouts instant,
    withSigner chain validators self timeouts instant = .ok l.node

/-- If the tip is not the block that was accepted at its height but an anchor in its place, a
block that the node would take on top of it is not earlier than that block. -/
def NotEarlier (l : Lifetimes) (env : Env) (block : Block) : Prop :=
  l.node.checkProposedBlock env block = .ok () →
    ∀ b, predecessor l.accepted block = some b → l.node.chain.tip ≠ b →
      b.timestamp ≤ block.timestamp

/-- Every block that comes in on top of an anchor keeps to the order. -/
def KeepsTime (l : Lifetimes) : Event → Prop
  | .operation env (.call (.receiveProposal p)) => l.NotEarlier env p.block
  | .operation env (.call (.applySyncCertificates certificates)) =>
      ∀ c ∈ certificates, c.verify l.node.validators = .ok () → l.NotEarlier env c.block
  | .operation env (.applySyncBatch blocks) => ∀ block ∈ blocks, l.NotEarlier env block
  | _ => True

end

/-! ## Blocks in order -/

/-- The block is not earlier than the one accepted last at the preceding height. -/
def Fits (accepted : List Block) (block : Block) : Prop :=
  ∀ b, predecessor accepted block = some b → b.timestamp ≤ block.timestamp

theorem timesInOrder_nil : TimesInOrder [] := by
  intro later block earlier h
  simp at h

theorem TimesInOrder.cons {accepted : List Block} {block : Block} (h : TimesInOrder accepted)
    (hfits : Fits accepted block) : TimesInOrder (block :: accepted) := by
  intro later b' earlier hsplit
  cases later with
  | nil =>
      cases hsplit
      exact hfits
  | cons first later =>
      cases hsplit
      exact h later b' earlier rfl

/-- The accepted blocks are in order, and a candidate for the next height would be too. -/
structure Timely (accepted : List Block) (rt : ConsensusRuntime) : Prop where
  order : TimesInOrder accepted
  pendingHeight : ∀ b, rt.pending = some b → b.height ≤ rt.chain.tipHeight + 1
  pendingFits : ∀ b, rt.pending = some b → b.height = rt.chain.tipHeight + 1 → Fits accepted b

/-- The chain has grown by blocks that keep the order. -/
def Grown (accepted : List Block) (rt rt' : ConsensusRuntime) : Prop :=
  ∃ joined, rt'.chain.blocks = rt.chain.blocks ++ joined ∧ Timely (joined.reverse ++ accepted) rt'

section
variable {accepted : List Block} {rt rt' rt'' : ConsensusRuntime}

theorem Timely.same (h : Timely accepted rt) (hchain : rt'.chain = rt.chain)
    (hpending : ∀ b, rt'.pending = some b → rt.pending = some b) : Timely accepted rt' where
  order := h.order
  pendingHeight b hb := by
    rw [hchain]
    exact h.pendingHeight b (hpending b hb)
  pendingFits b hb := by
    rw [hchain]
    exact h.pendingFits b (hpending b hb)

theorem Timely.idle (h : TimesInOrder accepted) (hpending : rt.pending = none) :
    Timely accepted rt :=
  ⟨h, by simp [hpending], by simp [hpending]⟩

theorem Grown.same (h : Timely accepted rt) (hchain : rt'.chain = rt.chain)
    (hpending : ∀ b, rt'.pending = some b → rt.pending = some b) : Grown accepted rt rt' :=
  ⟨[], by rw [hchain, List.append_nil], h.same hchain hpending⟩

theorem Grown.refl (h : Timely accepted rt) : Grown accepted rt rt := .same h rfl fun _ => id

theorem Grown.trans (h : Grown accepted rt rt')
    (hnext : ∀ accepted', Timely accepted' rt' → Grown accepted' rt' rt'') :
    Grown accepted rt rt'' := by
  obtain ⟨joined, hblocks, htimely⟩ := h
  obtain ⟨joined', hblocks', htimely'⟩ := hnext _ htimely
  refine ⟨joined ++ joined', ?_, ?_⟩
  · rw [hblocks', hblocks, List.append_assoc]
  · rw [List.reverse_append, List.append_assoc]
    exact htimely'

theorem Grown.thenSame (h : Grown accepted rt rt') (hchain : rt''.chain = rt'.chain)
    (hpending : ∀ b, rt''.pending = some b → rt'.pending = some b) : Grown accepted rt rt'' :=
  h.trans fun _ htimely => .same htimely hchain hpending

/-- First one block, then the rest. -/
theorem Grown.cons {block : Block} (hblocks : rt'.chain.blocks = rt.chain.blocks ++ [block])
    (h : Grown (block :: accepted) rt' rt'') : Grown accepted rt rt'' := by
  obtain ⟨joined, hjoined, htimely⟩ := h
  refine ⟨block :: joined, ?_, ?_⟩
  · rw [hjoined, hblocks, List.append_assoc]
    rfl
  · rw [List.reverse_cons, List.append_assoc]
    exact htimely

theorem Timely.framed {new : List ConsensusMessage} (h : Timely accepted rt)
    (hframe : Frame new rt rt') (hpending : rt'.pending = rt.pending ∨ rt'.pending = none) :
    Grown accepted rt rt' := by
  refine .same h hframe.chain ?_
  rcases hpending with hpending | hpending
  · rw [hpending]
    exact fun _ => id
  · simp [hpending]

/-- A round that goes on or is left. -/
theorem Timely.moved {new : List ConsensusMessage} (h : Timely accepted rt)
    (hframe : Frame new rt rt') (hmoved : Stayed rt rt' ∨ Jumped rt rt') : Grown accepted rt rt' :=
  h.framed hframe (hmoved.imp (·.pending) fun ⟨_, _, _, _, _, hpending, _⟩ => hpending)

theorem Timely.openNextHeight (h : Timely accepted rt) (env : Env) :
    Grown accepted rt (rt.openNextHeight env).1 := by
  obtain ⟨hframe, hrefused | ⟨-, -, hpending, -⟩⟩ := rt.openNextHeight_cases env
  · rw [hrefused]
    exact .refl h
  · exact h.framed hframe (.inr hpending)

section
variable [Crypto]

/-- A block that fits joins the chain. -/
theorem Timely.applied (h : Timely accepted rt) (rt' : ConsensusRuntime) {block : Block}
    {chain : Blockchain}
    (happly : rt.chain.applyBlock block = .ok chain) (hfits : Fits accepted block)
    (hchain : rt'.chain = chain)
    (hpending : ∀ b, rt'.pending = some b → rt.pending = some b) :
    rt'.chain.blocks = rt.chain.blocks ++ [block] ∧ Timely (block :: accepted) rt' := by
  have htip := Blockchain.tipHeight_applyBlock happly
  obtain ⟨-, -, -, l, -, rfl⟩ := Blockchain.applyBlock_eq_ok.1 happly
  have hlow : ∀ b, rt'.pending = some b → b.height ≤ rt.chain.tipHeight + 1 :=
    fun b hb => h.pendingHeight b (hpending b hb)
  refine ⟨by rw [hchain]; rfl, h.order.cons hfits, fun b hb => ?_, fun b hb heq => ?_⟩
  · have := hlow b hb
    rw [hchain, htip]
    omega
  · have := hlow b hb
    rw [hchain, htip] at heq
    omega

/-- On top of an accepted block the node's own comparison is enough. -/
theorem fits_of_notEarlier {env : Env} {block : Block}
    (hcheck : rt.checkProposedBlock env block = .ok ())
    (hanchor : NotEarlier ⟨rt, accepted⟩ env block) : Fits accepted block := by
  intro b hb
  by_cases htip : rt.chain.tip = b
  · rw [← htip]
    simp only [checkProposedBlock, check_bind_eq_ok] at hcheck
    exact (validateScheduledBlock_eq_ok.1 hcheck.2).1
  · exact hanchor hcheck b hb htip

theorem checkProposedBlock_of_applyBlock {env : Env} {block : Block} {chain : Blockchain}
    (hvalid : rt.validateScheduledBlock env.unixNow block = .ok ())
    (happly : rt.chain.applyBlock block = .ok chain) :
    rt.checkProposedBlock env block = .ok () := by
  obtain ⟨hheight, hprevious, -⟩ := Blockchain.applyBlock_eq_ok.1 happly
  simp only [checkProposedBlock, check_bind_eq_ok, reject_eq_ok]
  exact ⟨by simp [hheight, hprevious], hvalid⟩

/-- Right after a block has joined the chain the tip is the block accepted last. -/
theorem notEarlier_joined {block : Block} {chain : Blockchain}
    (happly : chain.applyBlock block = .ok rt.chain) (env : Env) (next : Block) :
    NotEarlier ⟨rt, block :: accepted⟩ env next := by
  intro hcheck b hb hne
  simp only [checkProposedBlock, check_bind_eq_ok, reject_eq_ok, not_or, not_not] at hcheck
  obtain ⟨-, -, -, l, -, hpush⟩ := Blockchain.applyBlock_eq_ok.1 happly
  have htip : rt.chain.tip = block := by rw [← hpush, Blockchain.tip_push]
  have hnext : block.height + 1 = next.height := by
    rw [hcheck.1.2, Blockchain.tipHeight, htip]
  rw [predecessor, List.find?_cons_of_pos (by simp [hnext])] at hb
  cases hb
  exact absurd htip hne

/-! ## Every operation keeps the order -/

theorem Timely.receiveProposal (h : Timely accepted rt) {env : Env} {p : SignedProposal}
    (hanchor : NotEarlier ⟨rt, accepted⟩ env p.block) :
    Grown accepted rt (rt.receiveProposal env p).1 := by
  rcases rt.receiveProposal_cases env p with ⟨c', e, -, hcase⟩ | ⟨hcheck, -, -, hcase⟩
  · rw [hcase]
    exact .same h rfl fun _ => id
  · have hfits := fits_of_notEarlier hcheck hanchor
    simp only [checkProposedBlock, check_bind_eq_ok, reject_eq_ok, not_or, not_not] at hcheck
    rw [hcase]
    refine ⟨[], by rw [List.append_nil]; rfl, h.order, ?_, ?_⟩
    · rintro b ⟨⟩
      exact hcheck.1.2.le
    · rintro b ⟨⟩ -
      exact hfits

theorem Timely.afterVote (h : Timely accepted rt) (env : Env) :
    Grown accepted rt (rt.afterVote env).1 := by
  rcases rt.afterVote_cases env with hcase | ⟨b, -, -, hcase⟩ | ⟨b, -, -, hcase⟩ |
    ⟨b, chain, -, hpending, -, -, happly, hcase⟩
  · rw [hcase]
    exact .refl h
  · rw [hcase]
    exact .same h rfl fun _ => id
  · rw [hcase]
    exact .same h rfl (by simp)
  · have hfits := h.pendingFits b hpending (Blockchain.applyBlock_eq_ok.1 happly).1
    obtain ⟨hblocks, htimely⟩ := h.applied (rt.afterVote env).1 happly hfits (by rw [hcase])
      (by simp [hcase])
    exact .cons hblocks (.refl htimely)

theorem Timely.receiveVote (h : Timely accepted rt) (env : Env) (vote : ConsensusMessage) :
    Grown accepted rt (rt.receiveVote env vote).1 := by
  rcases rt.receiveVote_cases env vote with ⟨c', e, -, hcase⟩ | ⟨-, -, c₁, -, hcase⟩
  · rw [hcase]
    exact .same h rfl fun _ => id
  · rw [hcase]
    obtain ⟨hframe, -, hpending⟩ :=
      frame_counted rt env vote ((c₁.addVote vote).advancePhase vote)
    exact (h.framed hframe (.inl hpending)).trans fun _ htimely => htimely.afterVote env

theorem Timely.timeout (h : Timely accepted rt) (env : Env) (now : ℕ) :
    Grown accepted rt (rt.timeoutIfDueWithRoundChange env now).1 := by
  obtain ⟨rt₁, hrt₁, hframe, hmoved⟩ := rt.timeoutIfDueWithRoundChange_cases env now
  have hsigned : Grown accepted rt rt₁ := by
    rcases hrt₁ with rfl | rfl
    · exact .refl h
    · exact .same h rfl fun _ => id
  exact hsigned.trans fun _ htimely => htimely.moved hframe hmoved

theorem grownReplay (accepted : List Block) (base : ConsensusRuntime) (env : Env) :
    ReplayRule env (Grown accepted base) (fun _ _ => True) (fun _ _ => True) where
  receive _ v h _ := h.trans fun _ htimely => htimely.receiveVote env v
  keep _ _ _ _ _ _ := trivial
  keepSent _ _ _ _ _ _ := trivial
  reply _ _ _ _ _ _ := ⟨trivial, trivial⟩
  deferred _ _ _ _ := trivial
  store _ _ h _ := h.thenSame rfl fun _ => id
  storeKeep _ _ _ _ := trivial
  storeSent _ _ _ _ := trivial

theorem Timely.applySyncLoop {env : Env} {certificates : List FinalityCertificate} {applied : ℕ}
    (h : Timely accepted rt)
    (hanchor : ∀ c ∈ certificates, c.verify rt.validators = .ok () →
      NotEarlier ⟨rt, accepted⟩ env c.block) :
    Grown accepted rt (applySyncLoop env certificates rt applied).1 := by
  induction certificates generalizing rt accepted applied with
  | nil => exact .refl h
  | cons c rest ih =>
      unfold ConsensusRuntime.applySyncLoop
      cases hone : rt.applySyncCertificate env c with
      | error e => exact .refl h
      | ok result =>
          have hacceptable := acceptable_of_applySyncCertificate hone
          have hwhich := applySyncCertificate_of_acceptable hacceptable
          obtain ⟨hverify, hnext⟩ := hacceptable
          rw [hone] at hwhich
          split_ifs at hwhich hnext
          · cases hwhich
            exact ih h fun c' hc' => hanchor c' (List.mem_cons_of_mem _ hc')
          · cases hwhich
            obtain ⟨-, hvalid, chain, happly⟩ := hnext
            have hfits := fits_of_notEarlier (checkProposedBlock_of_applyBlock hvalid happly)
              (hanchor c (List.mem_cons_self ..) hverify)
            have hoffer : rt.chain.offer c.block = chain := by simp [Blockchain.offer, happly]
            rw [hoffer]
            obtain ⟨hblocks, htimely⟩ := h.applied
              { rt with chain, finalized := rt.finalized ++ [c] } happly hfits rfl fun _ => id
            exact .cons hblocks (ih htimely fun c' _ _ => notEarlier_joined happly env c'.block)

theorem Timely.applySyncBatch {env : Env} {blocks : List Block} {applied : ℕ}
    (h : Timely accepted rt) (hanchor : ∀ b ∈ blocks, NotEarlier ⟨rt, accepted⟩ env b) :
    Grown accepted rt (applySyncBatch env blocks rt applied).1 := by
  induction blocks generalizing rt accepted applied with
  | nil => exact .refl h
  | cons block rest ih =>
      unfold ConsensusRuntime.applySyncBatch
      dsimp only
      split_ifs
      · exact ih h fun b hb => hanchor b (List.mem_cons_of_mem _ hb)
      · exact .refl h
      · cases hvalid : rt.validateScheduledBlock env.unixNow block with
        | error e => exact .refl h
        | ok u =>
            cases happly : rt.chain.applyBlock block with
            | error e => exact .refl h
            | ok chain =>
                have hfits := fits_of_notEarlier (checkProposedBlock_of_applyBlock hvalid happly)
                  (hanchor block (List.mem_cons_self ..))
                obtain ⟨hblocks, htimely⟩ :=
                  h.applied { rt with chain } happly hfits rfl fun _ => id
                exact .cons hblocks (ih htimely fun b _ => notEarlier_joined happly env b)

theorem Timely.applySyncCertificates (h : Timely accepted rt) {env : Env}
    {certificates : List FinalityCertificate}
    (hanchor : ∀ c ∈ certificates, c.verify rt.validators = .ok () →
      NotEarlier ⟨rt, accepted⟩ env c.block) :
    Grown accepted rt (rt.applySyncCertificates env certificates).1 := by
  have hloop : Grown accepted rt (ConsensusRuntime.applySyncLoop env certificates rt 0).1 :=
    h.applySyncLoop hanchor
  unfold ConsensusRuntime.applySyncCertificates
  generalize ConsensusRuntime.applySyncLoop env certificates rt 0 = result at hloop
  obtain ⟨rt₁, result⟩ := result
  cases result with
  | error e => exact hloop
  | ok total =>
      dsimp only at hloop ⊢
      split_ifs
      · exact hloop
      · exact hloop.trans fun _ htimely => htimely.openNextHeight env

theorem Timely.run (h : Timely accepted rt) {env : Env} {call : Call}
    (hkeeps : KeepsTime ⟨rt, accepted⟩ (.operation env (.call call))) :
    Grown accepted rt (rt.run env call).1 := by
  cases call with
  | makeProposal block =>
      rcases rt.makeProposal_cases env block with hcase | ⟨_, _, _, _, _, hcase⟩
      · simp only [ConsensusRuntime.run, hcase]
        exact .refl h
      · simp only [ConsensusRuntime.run, hcase]
        exact .same h rfl fun _ => id
  | receiveProposal p => exact h.receiveProposal hkeeps
  | receiveVote vote => exact h.receiveVote env vote
  | deferVote vote =>
      obtain ⟨hframe, hstayed⟩ := rt.frame_deferVote vote
      exact h.moved hframe (.inl hstayed)
  | replayDeferredVotes => exact ((grownReplay accepted rt env).replay (.refl h)).1
  | receiveRoundChange m =>
      obtain ⟨hframe, hmoved⟩ := rt.receiveRoundChange_cases env m
      exact h.moved hframe hmoved
  | timeoutIfDueWithRoundChange now => exact h.timeout env now
  | applySyncCertificates certificates => exact h.applySyncCertificates hkeeps
  | advanceAfterFinalization =>
      rcases rt.advanceAfterFinalization_cases env with hcase | ⟨-, hcase⟩
      · simp only [ConsensusRuntime.run, hcase]
        exact .refl h
      · simp only [ConsensusRuntime.run, hcase]
        exact h.openNextHeight env
  | restartPhaseTimeout now => exact .same h rfl fun _ => id
  | takeEvidence => exact .same h rfl fun _ => id
  | takeFinalized => exact .same h rfl fun _ => id

theorem Timely.installCertifiedSnapshot (h : Timely accepted rt) (env : Env)
    (snapshot : StateSnapshot) (certificate : SnapshotCertificate) :
    Timely accepted (rt.installCertifiedSnapshot env snapshot certificate).1 := by
  rcases rt.installCertifiedSnapshot_cases env snapshot certificate with
    hcase | ⟨hlt, htip, -, ⟨-, hpending⟩ | ⟨-, hpending, -⟩⟩
  · rw [hcase]
    exact h
  · -- a candidate that is kept is for a height the chain now has
    have hlow : ∀ b, rt.pending = some b → b.height ≤ snapshot.height := by
      intro b hb
      have := h.pendingHeight b hb
      omega
    refine ⟨h.order, fun b hb => ?_, fun b hb heq => ?_⟩
    · rw [hpending] at hb
      rw [htip]
      exact (hlow b hb).trans (Nat.le_succ _)
    · rw [hpending] at hb
      rw [htip] at heq
      have := hlow b hb
      omega
  · exact .idle h.order hpending

theorem Timely.perform (h : Timely accepted rt) {env : Env} {op : Operation}
    (hkeeps : KeepsTime ⟨rt, accepted⟩ (.operation env op))
    (hchain : ∀ snapshot certificate, op ≠ .installCertifiedSnapshot snapshot certificate) :
    Grown accepted rt (rt.perform env op) := by
  cases op with
  | call call => exact h.run hkeeps
  | timeoutIfDue now => exact h.timeout env now
  | forceTimeoutForTest => exact .same h rfl (by simp [ConsensusRuntime.perform, forceTimeoutForTest])
  | applySyncBatch blocks => exact h.applySyncBatch hkeeps
  | importCertificateHistory certificates =>
      obtain ⟨finalized, hcase⟩ := rt.importCertificateHistory_eq certificates
      simp only [ConsensusRuntime.perform, hcase]
      exact .same h rfl fun _ => id
  | installCertifiedSnapshot snapshot certificate => exact absurd rfl (hchain snapshot certificate)
  | replaceBootstrapValidators validators =>
      simp only [ConsensusRuntime.perform]
      rcases rt.replaceBootstrapValidators_cases env validators with hcase | ⟨-, -, c, -, hcase⟩
      · rw [hcase]
        exact .refl h
      · rw [hcase]
        refine .same h rfl ?_
        rintro b ⟨⟩
  | configure => exact .same h rfl fun _ => id

end

end

/-! ## Runs -/

section
variable [Crypto]

/-- What an operation other than the installation of a snapshot does to the record. -/
theorem step_operation {l : Lifetimes} {env : Env} {op : Operation}
    (hop : ∀ snapshot certificate, op ≠ .installCertifiedSnapshot snapshot certificate) :
    l.step (.operation env op) = .ok
      { node := l.node.perform env op
        accepted := ((l.node.perform env op).chain.blocks.drop
          l.node.chain.blocks.length).reverse ++ l.accepted } := by
  cases op with
  | installCertifiedSnapshot snapshot certificate => exact absurd rfl (hop snapshot certificate)
  | _ => rfl

theorem Timely.step {l l' : Lifetimes} (h : Timely l.accepted l.node) {e : Event}
    (hkeeps : KeepsTime l e) (hstep : l.step e = .ok l') : Timely l'.accepted l'.node := by
  cases e with
  | operation env op =>
      by_cases hop : ∃ snapshot certificate, op = .installCertifiedSnapshot snapshot certificate
      · obtain ⟨snapshot, certificate, rfl⟩ := hop
        cases hstep
        exact h.installCertifiedSnapshot env snapshot certificate
      · push Not at hop
        rw [step_operation hop] at hstep
        cases hstep
        obtain ⟨joined, hblocks, htimely⟩ := h.perform hkeeps hop
        simpa only [hblocks, List.drop_left] using htimely
  | restart genesis disk validators timeouts instant =>
      simp only [Lifetimes.step, bind_eq_ok, pure_eq_ok] at hstep
      obtain ⟨chain, -, node, hnode, rfl⟩ := hstep
      simp only [withSigner, bind_eq_ok, pure_eq_ok] at hnode
      obtain ⟨c, -, rfl⟩ := hnode
      exact .idle h.order rfl

/-- In every run in which no block on top of an anchor goes back in time, block times never go
back. -/
theorem timesInOrder_of_run {l l' : Lifetimes} (hstart : Started l) (hrun : Run KeepsTime l l') :
    TimesInOrder l'.accepted := by
  suffices h : Timely l'.accepted l'.node from h.order
  induction hrun with
  | refl =>
      obtain ⟨haccepted, chain, validators, self, timeouts, instant, hnode⟩ := hstart
      simp only [withSigner, bind_eq_ok, pure_eq_ok] at hnode
      obtain ⟨c, -, hnode⟩ := hnode
      rw [haccepted]
      exact .idle timesInOrder_nil (by rw [← hnode])
  | tail _ hkeeps hstep ih => exact ih.step hkeeps hstep

end

end Lifetimes

namespace Lone

open ConsensusRuntime Lifetimes

local instance blockTimeCrypto : Crypto := StandIn.crypto StandIn.digest

/-- A block on top of the first one, whose time is 5. -/
def secondBlock (timestamp : ℕ) : Block := Block.new 2 block.hash timestamp self []

def certificateFor (b : Block) : FinalityCertificate :=
  { block := b, round := 0
    precommits :=
      [{ height := b.height, round := 0, validatorId := self, voteType := .precommit
         blockHash := b.hash
         signature := StandIn.sign 1
           (ConsensusMessage.bytesToSign b.height 0 self .precommit b.hash) }] }

def sync (b : Block) : Lifetimes.Event :=
  .operation env (.call (.applySyncCertificates [certificateFor b]))

/-- A restart from the state that was committed last. -/
def restartFrom (c : Blockchain) : Lifetimes.Event :=
  .restart chain { state := some (StateSnapshot.fromChain c), checkpoint := none, activeBlocks := []
                   archivedBlocks := [] } validatorSet.validators ⟨1, 1, 1⟩ 0

def fresh : Lifetimes := ⟨node, []⟩

theorem started_fresh : fresh.Started := ⟨rfl, chain, _, _, _, _, eq_ok_get started_ok⟩

/-- After a restart the node takes a second block of any time. -/
theorem second_accepted :
    ∃ l₁ l₂, fresh.step (sync block) = .ok l₁ ∧ l₁.step (restartFrom l₁.node.chain) = .ok l₂ ∧
      l₂.accepted = [block] ∧ ∃ back forth,
        l₂.step (sync (secondBlock 3)) = .ok back ∧ back.accepted = [secondBlock 3, block] ∧
        l₂.step (sync (secondBlock 7)) = .ok forth ∧ forth.accepted = [secondBlock 7, block] := by
  obtain ⟨u, h⟩ := isOk_iff.1 (by decide +kernel : Except.isOk (do
    let l₁ ← fresh.step (sync block)
    let l₂ ← l₁.step (restartFrom l₁.node.chain)
    let back ← l₂.step (sync (secondBlock 3))
    let forth ← l₂.step (sync (secondBlock 7))
    reject (l₂.accepted ≠ [block] ∨ back.accepted ≠ [secondBlock 3, block] ∨
      forth.accepted ≠ [secondBlock 7, block]) "") = true)
  simp only [bind_eq_ok, reject_eq_ok, not_or, not_not] at h
  obtain ⟨l₁, h₁, l₂, h₂, back, hback, forth, hforth, haccepted, hearly, hlate⟩ := h
  exact ⟨l₁, l₂, h₁, h₂, haccepted, back, forth, hback, hearly, hforth, hlate⟩

/-- The node syncs a block, restarts from the state it has committed, and syncs an earlier block
on top of it. -/
theorem time_goes_back :
    fresh.Started ∧ ∃ l, Lifetimes.Run (fun _ _ => True) fresh l ∧ ¬TimesInOrder l.accepted := by
  obtain ⟨l₁, l₂, h₁, h₂, -, l₃, -, h₃, haccepted, -⟩ := second_accepted
  refine ⟨started_fresh, l₃, ((Run.refl _).tail trivial h₁ |>.tail trivial h₂).tail trivial h₃, ?_⟩
  intro horder
  rw [haccepted] at horder
  have hle := horder [] (secondBlock 3) [block] rfl block rfl
  exact absurd hle (by decide)

/-- The same with a later block. -/
theorem timesInOrder_of_run_later :
    ∃ l, Lifetimes.Run KeepsTime fresh l ∧ l.accepted = [secondBlock 7, block] ∧
      TimesInOrder l.accepted := by
  obtain ⟨l₁, l₂, h₁, h₂, hfirst, -, l₃, -, -, h₃, haccepted⟩ := second_accepted
  have hsync : fresh.KeepsTime (sync block) := by
    intro c _ _ _ b hb
    cases hb
  have hrestart : l₁.KeepsTime (restartFrom l₁.node.chain) := trivial
  have hlater : l₂.KeepsTime (sync (secondBlock 7)) := by
    intro c hc _ _ b hb _
    rw [List.mem_singleton.1 hc, hfirst] at hb
    cases hb
    rw [List.mem_singleton.1 hc]
    decide
  have hrun := (((Run.refl _).tail hsync h₁).tail hrestart h₂).tail hlater h₃
  exact ⟨l₃, hrun, haccepted, timesInOrder_of_run started_fresh hrun⟩

end Lone

end IeumChain
