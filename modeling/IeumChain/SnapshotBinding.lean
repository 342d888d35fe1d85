import IeumChain.Agreement

/-!
# What a snapshot certificate fixes

A certificate is over a height, a block hash and a state hash, and the state hash reads
the nonce of an address only if the address has a balance entry. A certificate of a
later height therefore never fixes the state that a node installs with it.
-/
namespace IeumChain

open ByteCodec Outcome FiniteMap

/-- Equality of everything that a certified state is meant to fix. -/
structure Ledger.SameState (l l' : Ledger) : Prop where
  balances : ∀ address, l'.balanceOf address = l.balanceOf address
  nonces : ∀ address, l'.nextNonce address = l.nextNonce address
  executedEvents : l'.executedEvents = l.executedEvents
  staking : l'.staking = l.staking

theorem Ledger.SameState.refl (l : Ledger) : l.SameState l := ⟨fun _ => rfl, fun _ => rfl, rfl, rfl⟩

namespace ConsensusRuntime

section
variable [Crypto] {rt : ConsensusRuntime} {env : Env} {s : StateSnapshot}
  {certificate : SnapshotCertificate}

/-- The node takes the snapshot with the certificate. -/
def AcceptsSnapshot (rt : ConsensusRuntime) (env : Env) (certificate : SnapshotCertificate)
    (s : StateSnapshot) : Prop := (rt.installCertifiedSnapshot env s certificate).2 = .ok ()

/-- Every accepted snapshot has the height of its certificate. -/
theorem verifySnapshot_height {validators : List Validator}
    (h : certificate.verifySnapshot s validators = .ok ()) : certificate.height = s.height := by
  simp only [SnapshotCertificate.verifySnapshot, check_bind_eq_ok, reject_eq_ok, not_or,
    not_not] at h
  exact h.2.1

/-- A snapshot is accepted without effect, or the node continues from its ledger. -/
theorem AcceptsSnapshot.cases (h : rt.AcceptsSnapshot env certificate s) :
    certificate.height = s.height ∧
      (s.height ≤ rt.chain.tipHeight ∧ (rt.installCertifiedSnapshot env s certificate).1 = rt ∨
        rt.chain.tipHeight < s.height ∧ (rt.consensus.startRound (s.height + 1) 0).2 = .ok () ∧
          (∃ chain, rt.restoreSnapshot s certificate = .ok (some chain)) ∧
          (rt.installCertifiedSnapshot env s certificate).1.chain.toLedger = s.ledger) := by
  unfold AcceptsSnapshot installCertifiedSnapshot at h
  unfold installCertifiedSnapshot
  cases hrestored : rt.restoreSnapshot s certificate with
  | error e =>
      rw [hrestored] at h
      cases h
  | ok restored =>
      rw [hrestored] at h
      cases restored with
      | none =>
          obtain ⟨hverify, hheight⟩ := restoreSnapshot_eq_none hrestored
          exact ⟨verifySnapshot_height hverify, .inl ⟨hheight, rfl⟩⟩
      | some chain =>
          obtain ⟨hverify, -, hlt, hfrom, -⟩ := restoreSnapshot_eq_some.1 hrestored
          refine ⟨verifySnapshot_height hverify, .inr ?_⟩
          dsimp only at h ⊢
          generalize rt.consensus.startRound (s.height + 1) 0 = started at h ⊢
          obtain ⟨c, result⟩ := started
          cases result with
          | error e => cases h
          | ok u => exact ⟨hlt, rfl, ⟨chain, rfl⟩, (fromSnapshotWithStaking_spec hfrom).2⟩

theorem acceptsSnapshot_of_restored {chain : Blockchain}
    (hrestored : rt.restoreSnapshot s certificate = .ok (some chain))
    (hstart : (rt.consensus.startRound (s.height + 1) 0).2 = .ok ()) :
    rt.AcceptsSnapshot env certificate s := by
  unfold AcceptsSnapshot installCertifiedSnapshot
  rw [hrestored]
  dsimp only
  generalize rt.consensus.startRound (s.height + 1) 0 = started at hstart ⊢
  obtain ⟨c, result⟩ := started
  cases result with
  | error e => cases hstart
  | ok u => rfl

/-! ## Nonces outside the certificate -/

/-- The same snapshot with another nonce for one address. -/
def withNonce (s : StateSnapshot) (address : Address) (nonce : ℕ) : StateSnapshot :=
  { s with nextNonces := s.nextNonces.insert address nonce }

/-- The nonce of an address without a balance entry is not in the state hash. -/
theorem stateHash_withNonce {address : Address} (h : address ∉ s.balances) (nonce : ℕ) :
    Blockchain.stateHash (withNonce s address nonce).ledger = Blockchain.stateHash s.ledger := by
  have hentries : ∀ e ∈ s.balances.entries.insertionSort (·.1 ≤ ·.1),
      (withNonce s address nonce).ledger.nextNonce e.1 = s.ledger.nextNonce e.1 := by
    intro e he
    have hkey : e.1 ∈ s.balances := by
      rw [List.mem_insertionSort] at he
      exact List.mem_keys_of_mem he
    have hne : e.1 ≠ address := fun heq => h (heq ▸ hkey)
    exact getD_insert_ne _ hne ..
  have hflat : (s.balances.entries.insertionSort (·.1 ≤ ·.1)).flatMap (fun e =>
        utf8 e.1 ++ beBytes 16 e.2 ++ beBytes 8 ((withNonce s address nonce).ledger.nextNonce e.1)) =
      (s.balances.entries.insertionSort (·.1 ≤ ·.1)).flatMap (fun e =>
        utf8 e.1 ++ beBytes 16 e.2 ++ beBytes 8 (s.ledger.nextNonce e.1)) := by
    refine List.flatMap_congr fun e he => ?_
    rw [hentries e he]
  simp only [Blockchain.stateHash, Blockchain.statePreimage]
  exact congrArg (fun bytes => sha256Hex (bytes ++ _ ++ _)) hflat

/-- Whatever nonce such an address gets, the snapshot stays restorable. -/
theorem restoreSnapshot_withNonce {chain : Blockchain}
    (h : rt.restoreSnapshot s certificate = .ok (some chain)) {address : Address}
    (haddress : address ∉ s.balances) (nonce : ℕ) :
    ∃ chain', rt.restoreSnapshot (withNonce s address nonce) certificate = .ok (some chain') := by
  obtain ⟨hverify, hids, hlt, hfrom, hhash⟩ := restoreSnapshot_eq_some.1 h
  rw [(fromSnapshotWithStaking_spec hfrom).2] at hhash
  simp only [Blockchain.fromSnapshotWithStaking, check_bind_eq_ok] at hfrom
  have hfrom' : ∃ chain',
      Blockchain.fromSnapshotWithStaking (withNonce s address nonce) = .ok chain' := by
    simp only [Blockchain.fromSnapshotWithStaking, check_bind_eq_ok]
    exact ⟨_, hfrom.1, hfrom.2.1, rfl⟩
  obtain ⟨chain', hchain'⟩ := hfrom'
  refine ⟨chain', restoreSnapshot_eq_some.2 ⟨hverify, hids, hlt, hchain', ?_⟩⟩
  rw [(fromSnapshotWithStaking_spec hchain').2, stateHash_withNonce haddress]
  exact hhash

/-- All snapshots that a node accepts with one certificate leave it in the same state exactly if
the certificate is for a height that the chain already has. -/
theorem sameState_iff_height_le (haccept : rt.AcceptsSnapshot env certificate s) :
    (∀ s', rt.AcceptsSnapshot env certificate s' →
      (rt.installCertifiedSnapshot env s certificate).1.chain.toLedger.SameState
        (rt.installCertifiedSnapshot env s' certificate).1.chain.toLedger) ↔
      certificate.height ≤ rt.chain.tipHeight := by
  obtain ⟨hheight, hcases⟩ := haccept.cases
  constructor
  · intro h
    rcases hcases with ⟨hle, -⟩ | ⟨hlt, hstart, ⟨chain, hrestored⟩, hledger⟩
    · rw [hheight]
      exact hle
    · exfalso
      obtain ⟨address, haddress⟩ := Infinite.exists_notMem_finset s.balances.keys.toFinset
      have hfresh : address ∉ s.balances := fun hmem =>
        haddress (List.mem_toFinset.2 (AList.mem_keys.1 hmem))
      -- one of the first two nonces is another one than in the snapshot
      obtain ⟨nonce, hnonce⟩ : ∃ nonce ∈ [0, 1], nonce ≠ s.ledger.nextNonce address := by
        by_cases hzero : s.ledger.nextNonce address = 0
        · exact ⟨1, by simp, by omega⟩
        · exact ⟨0, by simp, by omega⟩
      obtain ⟨chain', hrestored'⟩ := restoreSnapshot_withNonce hrestored hfresh nonce
      have haccept' : rt.AcceptsSnapshot env certificate (withNonce s address nonce) :=
        acceptsSnapshot_of_restored hrestored' hstart
      have hledger' : (rt.installCertifiedSnapshot env (withNonce s address nonce)
          certificate).1.chain.toLedger = (withNonce s address nonce).ledger := by
        rcases haccept'.cases.2 with ⟨hle, -⟩ | ⟨-, -, -, hledger'⟩
        · exact absurd hle (not_le.2 hlt)
        · exact hledger'
      have hsame := (h _ haccept').nonces address
      rw [hledger, hledger'] at hsame
      have hstored : (withNonce s address nonce).ledger.nextNonce address = nonce :=
        getD_insert_self ..
      exact hnonce.2 (hstored.symm.trans hsame)
  · intro hle s' haccept'
    have hunchanged : ∀ s₁, rt.AcceptsSnapshot env certificate s₁ →
        (rt.installCertifiedSnapshot env s₁ certificate).1 = rt := by
      intro s₁ haccept₁
      obtain ⟨hheight₁, ⟨-, hunchanged⟩ | ⟨hlt, -⟩⟩ := haccept₁.cases
      · exact hunchanged
      · rw [← hheight₁] at hlt
        exact absurd hle (not_le.2 hlt)
    rw [hunchanged s haccept, hunchanged s' haccept']
    exact .refl _

end

end ConsensusRuntime

/-! A snapshot of height one with empty maps, certified by the only validator, and its copy with
a nonce for an address that has no balance. -/

namespace Lone

open ConsensusRuntime

local instance snapshotCrypto : Crypto := StandIn.crypto id

def freshChain : Blockchain := Blockchain.withChainId 21005 []

theorem started_freshChain : (started freshChain).toOption.isSome = true := by decide

def freshNode : ConsensusRuntime := (started freshChain).toOption.get started_freshChain

def snapshot : StateSnapshot :=
  { StateSnapshot.fromChain freshChain with
    height := 1, blockHash := String.ofList (List.replicate 64 'a') }

def snapshotCertificate : SnapshotCertificate :=
  { height := 1, blockHash := snapshot.blockHash, stateRoot := snapshot.stateHash
    attestations :=
      [{ validatorId := self, height := 1, blockHash := snapshot.blockHash
         stateRoot := snapshot.stateHash
         signature := StandIn.sign 1
           (snapshotAttestationBytes 1 snapshot.blockHash snapshot.stateHash) }] }

theorem verifySnapshot_snapshot :
    snapshotCertificate.verifySnapshot snapshot [⟨self, 1⟩] = .ok () := by
  simp only [SnapshotCertificate.verifySnapshot, check_bind_eq_ok]
  refine ⟨?_, by simp [snapshotCertificate, snapshot]⟩
  simp only [SnapshotCertificate.verify, check_bind_eq_ok]
  refine ⟨by simp [listedPower], ?_⟩
  simp only [bind_eq_ok, reject_eq_ok]
  refine ⟨1, VoteTally.count_singleton _ ?_ ?_ lookup_self one_le_u128Max, by simp [listedPower]⟩
  · simp [SnapshotCertificate.rule, snapshotCertificate]
  · exact StandIn.verifySignature_sign id 1 _

/-- A node on the fresh chain can restore the snapshot. -/
theorem restoreSnapshot_snapshot {rt : ConsensusRuntime} (h : started freshChain = .ok rt) :
    (∃ restored, rt.restoreSnapshot snapshot snapshotCertificate = .ok (some restored)) ∧
      (rt.consensus.startRound (snapshot.height + 1) 0).2 = .ok () := by
  obtain ⟨hchain, hvalidators, -, hheight⟩ := started_spec h
  have hfrom : ∃ restored, Blockchain.fromSnapshotWithStaking snapshot = .ok restored :=
    isOk_iff.1 (by decide)
  obtain ⟨restored, hrestored⟩ := hfrom
  refine ⟨⟨restored, restoreSnapshot_eq_some.2 ⟨?_, ?_, ?_, hrestored, ?_⟩⟩, ?_⟩
  · rw [hvalidators]
    exact verifySnapshot_snapshot
  · rw [hchain]
    exact ⟨rfl, rfl⟩
  · rw [hchain]
    exact Nat.zero_lt_one
  · rw [(fromSnapshotWithStaking_spec hrestored).2]
    rfl
  · have hzero : freshChain.tipHeight = 0 := rfl
    rw [BftConsensus.startRound_of_le (.inl (by rw [hheight, hzero]; exact Nat.one_lt_two))]

theorem acceptsSnapshot_snapshot : freshNode.AcceptsSnapshot env snapshotCertificate snapshot := by
  obtain ⟨⟨restored, hrestored⟩, hstart⟩ :=
    restoreSnapshot_snapshot (eq_ok_get started_freshChain)
  exact acceptsSnapshot_of_restored hrestored hstart

/-- Two snapshots accepted with one certificate, and two nonces for one address. -/
theorem snapshots_with_two_nonces :
    Function.Injective Crypto.sha256 ∧
      freshNode.AcceptsSnapshot env snapshotCertificate snapshot ∧
      freshNode.AcceptsSnapshot env snapshotCertificate (withNonce snapshot self 1) ∧
      (freshNode.installCertifiedSnapshot env snapshot
          snapshotCertificate).1.chain.nextNonce self = 0 ∧
      (freshNode.installCertifiedSnapshot env (withNonce snapshot self 1)
          snapshotCertificate).1.chain.nextNonce self = 1 := by
  obtain ⟨⟨restored, hrestored⟩, hstart⟩ :=
    restoreSnapshot_snapshot (eq_ok_get started_freshChain)
  obtain ⟨restored', hrestored'⟩ :=
    restoreSnapshot_withNonce hrestored (AList.notMem_empty self) 1
  have haccept : freshNode.AcceptsSnapshot env snapshotCertificate snapshot :=
    acceptsSnapshot_of_restored hrestored hstart
  have haccept' : freshNode.AcceptsSnapshot env snapshotCertificate (withNonce snapshot self 1) :=
    acceptsSnapshot_of_restored hrestored' hstart
  have hlt := (restoreSnapshot_eq_some.1 hrestored).2.2.1
  have hledger : ∀ s, freshNode.AcceptsSnapshot env snapshotCertificate s →
      s.height = snapshot.height →
      (freshNode.installCertifiedSnapshot env s snapshotCertificate).1.chain.toLedger =
        s.ledger := by
    intro s hs hheight
    rcases hs.cases.2 with ⟨hle, -⟩ | ⟨-, -, -, hledger⟩
    · rw [hheight] at hle
      exact absurd hle (not_le.2 hlt)
    · exact hledger
  refine ⟨fun _ _ h => h, haccept, haccept', ?_, ?_⟩
  · rw [hledger _ haccept rfl]
    rfl
  · rw [hledger _ haccept' rfl]
    exact getD_insert_self ..

/-- The certificate does not fix the state, as its height is above the chain. -/
theorem sameState_iff_height_le_snapshot :
    ¬∀ s', freshNode.AcceptsSnapshot env snapshotCertificate s' →
      (freshNode.installCertifiedSnapshot env snapshot snapshotCertificate).1.chain.toLedger.SameState
        (freshNode.installCertifiedSnapshot env s' snapshotCertificate).1.chain.toLedger := by
  rw [sameState_iff_height_le acceptsSnapshot_snapshot]
  obtain ⟨hchain, -⟩ := started_spec (eq_ok_get started_freshChain)
  have htip : freshNode.chain.tipHeight = 0 := by
    rw [freshNode, hchain]
    rfl
  rw [htip]
  exact Nat.not_succ_le_zero 0

end Lone

end IeumChain
