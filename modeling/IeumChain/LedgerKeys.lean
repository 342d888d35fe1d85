import IeumChain.Conservation
import IeumChain.Genesis

/-!
# The keys of the ledger

Balances are stored under texts. Payments out of the foundation account go to the normalized
form of an address, but senders, receivers and block producers are written as they are
spelled. The keys of the ledger stay normalized exactly while every block spells them so, and
an account has one key exactly while none is also written without its marker.
-/
namespace IeumChain

open Text Outcome MachineWords FiniteMap

/-- A `0x` key is its own normalized form. -/
def CanonicalKey (key : Address) : Prop := startsWith key "0x" = true → key = canonicalAddress key

theorem CanonicalKey.eq_normalizeAddress {key : Address} (h : CanonicalKey key)
    (hmarked : startsWith key "0x" = true) : key = normalizeAddress key := by
  have hcanonical := h hmarked
  rwa [canonicalAddress, if_pos hmarked] at hcanonical

theorem canonicalKey_foundation : CanonicalKey foundationFeeAddress := by
  intro _
  decide

def StakingState.delegators (s : StakingState) : List Address :=
  s.delegations.map (·.delegator) ++ s.unbonding.map (·.delegator)

structure KeysCanonical (l : Ledger) : Prop where
  balances : ∀ key ∈ l.balances, CanonicalKey key
  delegators : ∀ key ∈ l.staking.delegators, CanonicalKey key

/-- The keys are normalized, and no two of them denote the same account. -/
structure KeysSound (l : Ledger) : Prop where
  canonical : KeysCanonical l
  single : Set.InjOn normalizeAddress {key | key ∈ l.balances}

/-! ## What a block writes -/

/-- The balances that a transaction writes, whatever the ledger holds. -/
def Transaction.writtenKeys (producer : Address) (tx : Transaction) : List Address :=
  tx.sender :: (if tx.action = .transfer then [tx.receiver] else []) ++
    (if tx.fee = 0 then [] else [producer]) ++
    if tx.fee * foundationFeeBps / feeBpsDenominator = 0 then [] else [foundationFeeAddress]

/-- The balances that payments out of the foundation account write. -/
def paidKeys (payments : List EventPayment) : List Address :=
  payments.flatMap fun p =>
    foundationFeeAddress :: if p.amount = 0 then [] else [canonicalAddress p.address]

def Block.writtenKeys (block : Block) : List Address :=
  block.transactions.flatMap (Transaction.writtenKeys block.producer) ++
    block.systemEvents.flatMap fun e => paidKeys (foundationPayments e.action)

/-- What a penalty takes from everything delegated to a validator. -/
def StakingState.slashedAmount (s : StakingState) (validator : String) (penaltyBps : ℕ) : ℕ :=
  (((s.delegations.filter (·.validator = validator)).map fun p => slashCut penaltyBps p.amount) ++
    (s.unbonding.filter (·.validator = validator)).map fun e => slashCut penaltyBps e.amount).sum

/-- The event is a penalty, and the ledger holds something that it takes. -/
def TakesPenalty (l : Ledger) (e : ScheduledEvent) : Prop :=
  ∃ evidence penaltyBps, e.action = .doubleVoteSlash evidence penaltyBps ∧
    l.staking.slashedAmount evidence.first.validatorId penaltyBps ≠ 0

theorem mem_creditBalance {b b' : HashMap Address ℕ} {address key : Address} {amount : ℕ}
    {message : String} (h : creditBalance b address amount message = .ok b') :
    key ∈ b' ↔ key ∈ b ∨ amount ≠ 0 ∧ key = address := by
  unfold creditBalance at h
  split_ifs at h with hzero
  · cases h
    simp [hzero]
  · simp only [bind_eq_ok, pure_eq_ok] at h
    obtain ⟨credited, -, rfl⟩ := h
    rw [AList.mem_insert, or_comm, and_iff_right hzero]

theorem mem_transferFromFoundation {b b' : HashMap Address ℕ} {p : EventPayment} {key : Address}
    (h : transferFromFoundation b p.address p.amount = .ok b') :
    key ∈ b' ↔ key ∈ b ∨ key ∈ paidKeys [p] := by
  simp only [transferFromFoundation, check_bind_eq_ok] at h
  rw [mem_creditBalance h.2, AList.mem_insert]
  by_cases hzero : p.amount = 0
  · simp [paidKeys, hzero, or_comm]
  · simp [paidKeys, hzero, or_comm, or_left_comm, or_assoc]

theorem mem_payFromFoundation {b b' : HashMap Address ℕ} {payments : List EventPayment}
    {key : Address} (h : payFromFoundation b payments = .ok b') :
    key ∈ b' ↔ key ∈ b ∨ key ∈ paidKeys payments := by
  induction payments generalizing b with
  | nil =>
      cases h
      simp [paidKeys]
  | cons p rest ih =>
      simp only [payFromFoundation, List.foldlM_cons, bind_eq_ok] at h
      obtain ⟨b₁, hp, hrest⟩ := h
      rw [ih hrest, mem_transferFromFoundation hp]
      simp [paidKeys, or_assoc]

theorem mem_distributeFee {b b' : HashMap Address ℕ} {producer key : Address} {fee : ℕ}
    (h : distributeFee b producer fee = .ok b') :
    key ∈ b' ↔ key ∈ b ∨ fee ≠ 0 ∧ key = producer ∨
      fee * foundationFeeBps / feeBpsDenominator ≠ 0 ∧ key = foundationFeeAddress := by
  simp only [distributeFee, bind_eq_ok, okOr_eq_ok, checkedMul_eq_some] at h
  obtain ⟨_, ⟨rfl, -⟩, b₁, hproducer, hfoundation⟩ := h
  have hshare : fee - fee * foundationFeeBps / feeBpsDenominator ≠ 0 ↔ fee ≠ 0 := by
    simp only [foundationFeeBps, feeBpsDenominator]
    omega
  rw [mem_creditBalance hfoundation, mem_creditBalance hproducer, hshare, or_assoc]

/-! ## Delegators -/

theorem map_updateFirst {α β : Type} {p : α → Bool} {f : α → α} {g : α → β}
    (h : ∀ a, g (f a) = g a) (l : List α) : (updateFirst p f l).map g = l.map g := by
  induction l with
  | nil => rfl
  | cons a rest ih =>
      cases hp : p a <;> simp [updateFirst, hp, h, ih]

namespace StakingState

variable {s s' : StakingState} {key : Address}

theorem mem_delegators : key ∈ s.delegators ↔
    key ∈ s.delegations.map (·.delegator) ∨ key ∈ s.unbonding.map (·.delegator) :=
  List.mem_append

theorem mem_delegators_sort : key ∈ s.sort.delegators ↔ key ∈ s.delegators := by
  simp [delegators, sort]

theorem mem_delegators_delegateAt {delegator validator : Address} {amount delegatedAt : ℕ}
    (h : s.delegateAt delegator validator amount delegatedAt = .ok s')
    (hkey : key ∈ s'.delegators) : key ∈ s.delegators ∨ key = delegator := by
  simp only [delegateAt, check_bind_eq_ok] at h
  obtain ⟨-, -, -, h⟩ := h
  split at h
  case h_1 position hfind =>
    simp only [bind_eq_ok, pure_eq_ok] at h
    obtain ⟨raised, -, rfl⟩ := h
    have hsame := map_updateFirst (p := isPosition delegator validator)
      (f := fun p => { p with amount := raised, delegatedAt := max p.delegatedAt delegatedAt })
      (g := DelegationPosition.delegator) (fun _ => rfl) s.delegations
    rw [mem_delegators_sort, mem_delegators, hsame] at hkey
    exact .inl (mem_delegators.2 hkey)
  case h_2 hfind =>
    simp only [pure_eq_ok] at h
    subst h
    rw [mem_delegators_sort, mem_delegators] at hkey
    rw [mem_delegators]
    simp only [List.map_append, List.map_cons, List.map_nil, List.mem_append,
      List.mem_singleton] at hkey
    rwa [or_right_comm]

theorem mem_delegators_undelegate {delegator validator : Address}
    {amount blockTimestamp releaseAt : ℕ}
    (h : s.undelegate delegator validator amount blockTimestamp = .ok (s', releaseAt))
    (hkey : key ∈ s'.delegators) : key ∈ s.delegators ∨ key = delegator := by
  simp only [undelegate, check_bind_eq_ok] at h
  obtain ⟨-, h⟩ := h
  simp only [bind_eq_ok, pure_eq_ok, Prod.mk.injEq] at h
  obtain ⟨position, -, -, -, release, -, rfl, -⟩ := h
  have hsame := map_updateFirst (p := isPosition delegator validator)
    (f := fun p => { p with amount := p.amount - amount })
    (g := DelegationPosition.delegator) (fun _ => rfl) s.delegations
  rw [mem_delegators_sort, mem_delegators] at hkey
  rw [mem_delegators, ← hsame]
  rcases hkey with hkey | hkey
  · have hkept := (List.filter_sublist.map DelegationPosition.delegator).subset hkey
    exact .inl (.inl hkept)
  · simp only [List.map_append, List.map_cons, List.map_nil, List.mem_append,
      List.mem_singleton] at hkey
    rw [or_assoc]
    exact .inr hkey

theorem mem_delegators_claim {delegator : Address} {blockTimestamp amount : ℕ}
    (h : s.claim delegator blockTimestamp = .ok (s', amount)) (hkey : key ∈ s'.delegators) :
    key ∈ s.delegators := by
  simp only [claim, bind_eq_ok, pure_eq_ok, Prod.mk.injEq] at h
  obtain ⟨_, -, -, -, rfl, -⟩ := h
  rw [mem_delegators] at hkey ⊢
  exact hkey.imp_right fun hkey => (List.filter_sublist.map _).subset hkey

theorem slash_spec {evidenceId validator : String} {penaltyBps total : ℕ}
    (h : s.slash evidenceId validator penaltyBps = .ok (s', total)) :
    total = s.slashedAmount validator penaltyBps ∧
      ∀ key ∈ s'.delegators, key ∈ s.delegators := by
  simp only [slash, check_bind_eq_ok, reject_eq_ok] at h
  obtain ⟨-, -, h⟩ := h
  simp only [bind_eq_ok, okOr_eq_ok, checkedSum_eq_some, pure_eq_ok, Prod.mk.injEq] at h
  obtain ⟨_, ⟨hsum, -⟩, rfl, rfl⟩ := h
  refine ⟨hsum.symm, fun key hkey => ?_⟩
  rw [mem_delegators] at hkey ⊢
  refine hkey.imp (fun hkey => ?_) fun hkey => ?_
  · obtain ⟨p, hp, rfl⟩ := List.mem_map.1 hkey
    obtain ⟨q, hq, rfl⟩ := List.mem_map.1 (List.mem_filter.1 hp).1
    refine List.mem_map.2 ⟨q, hq, ?_⟩
    split_ifs <;> rfl
  · obtain ⟨p, hp, rfl⟩ := List.mem_map.1 hkey
    obtain ⟨q, hq, rfl⟩ := List.mem_map.1 (List.mem_filter.1 hp).1
    refine List.mem_map.2 ⟨q, hq, ?_⟩
    split_ifs <;> rfl

end StakingState

/-! ## One step -/

/-- A step adds the written keys to the balances, and no delegator besides written keys. -/
structure Writes (l l' : Ledger) (written : Address → Prop) : Prop where
  balances : ∀ key, key ∈ l'.balances ↔ key ∈ l.balances ∨ written key
  delegators : ∀ key ∈ l'.staking.delegators, key ∈ l.staking.delegators ∨ key ∈ l'.balances

theorem applyTransactionAction_writes {l l' : Ledger} {blockTimestamp : ℕ} {tx : Transaction}
    (h : applyTransactionAction l blockTimestamp tx = .ok l') (hsender : tx.sender ∈ l.balances)
    (hamount : ¬(tx.amount = 0 ∧ tx.action ≠ .claimUnbonded)) :
    Writes l l' fun key => tx.action = .transfer ∧ key = tx.receiver := by
  unfold applyTransactionAction at h
  split at h
  case h_1 haction =>
    simp only [bind_eq_ok, pure_eq_ok] at h
    obtain ⟨b, hcredit, rfl⟩ := h
    have hpositive : tx.amount ≠ 0 := fun hzero => hamount ⟨hzero, by simp [haction]⟩
    refine ⟨fun key => ?_, fun key => .inl⟩
    rw [mem_creditBalance hcredit, and_iff_right hpositive, and_iff_right haction]
  case h_2 validator haction =>
    simp only [bind_eq_ok, pure_eq_ok] at h
    obtain ⟨staking, hdelegate, rfl⟩ := h
    refine ⟨fun key => by simp [haction], fun key hkey => ?_⟩
    rcases StakingState.mem_delegators_delegateAt hdelegate hkey with hkept | rfl
    · exact .inl hkept
    · exact .inr hsender
  case h_3 validator haction =>
    simp only [bind_eq_ok, pure_eq_ok, Prod.exists] at h
    obtain ⟨staking, releaseAt, hundelegate, rfl⟩ := h
    refine ⟨fun key => by simp [haction], fun key hkey => ?_⟩
    rcases StakingState.mem_delegators_undelegate hundelegate hkey with hkept | rfl
    · exact .inl hkept
    · exact .inr hsender
  case h_4 haction =>
    simp only [bind_eq_ok, pure_eq_ok, Prod.exists] at h
    obtain ⟨staking, claimed, hclaim, b, hcredit, rfl⟩ := h
    refine ⟨fun key => ?_, fun key hkey => .inl (StakingState.mem_delegators_claim hclaim hkey)⟩
    rw [mem_creditBalance hcredit]
    simp only [haction, reduceCtorEq, false_and, or_false, or_iff_left_iff_imp]
    rintro ⟨-, rfl⟩
    exact hsender

theorem runTransaction_writes {producer : Address} {blockTimestamp : ℕ} {l l' : Ledger}
    {tx : Transaction} (h : runTransaction producer blockTimestamp l tx = .ok l') :
    Writes l l' (· ∈ tx.writtenKeys producer) := by
  simp only [runTransaction, check_bind_eq_ok] at h
  obtain ⟨-, -, -, hamount, -, h⟩ := h
  rw [reject_eq_ok] at hamount
  simp only [bind_eq_ok, pure_eq_ok] at h
  obtain ⟨total, -, _, -, acted, hacted, b, hfee, rfl⟩ := h
  have hacts := applyTransactionAction_writes hacted ((AList.mem_insert _).2 (.inl rfl)) hamount
  have hbalances : ∀ key, key ∈ b ↔ key ∈ l.balances ∨ key ∈ tx.writtenKeys producer := by
    intro key
    rw [mem_distributeFee hfee, hacts.balances, AList.mem_insert]
    simp only [Transaction.writtenKeys, List.cons_append, List.mem_cons, List.mem_append,
      List.mem_ite_nil_left, List.mem_ite_nil_right, List.not_mem_nil, or_false, ne_eq,
      or_assoc, or_left_comm (a := key = tx.sender)]
  refine ⟨hbalances, fun key hkey => ?_⟩
  refine (hacts.delegators key hkey).imp_right fun hacted => ?_
  exact (mem_distributeFee hfee).2 (.inl hacted)

theorem applyAction_writes {l l' : Ledger} {id : String} {action : ScheduledEventAction}
    (h : applyAction l id action = .ok l') :
    Writes l l' fun key => key ∈ paidKeys (foundationPayments action) ∨
      key = foundationFeeAddress ∧ ∃ evidence penaltyBps, action = .doubleVoteSlash evidence penaltyBps ∧
        l.staking.slashedAmount evidence.first.validatorId penaltyBps ≠ 0 := by
  have hpaid : ∀ b, payFromFoundation l.balances (foundationPayments action) = .ok b →
      Writes l { l with balances := b } (· ∈ paidKeys (foundationPayments action)) :=
    fun b hb => ⟨fun key => mem_payFromFoundation hb, fun key => .inl⟩
  cases action with
  | doubleVoteSlash evidence penaltyBps =>
      simp only [applyAction, bind_eq_ok, pure_eq_ok, Prod.exists] at h
      obtain ⟨staking, slashed, hslash, b, hcredit, rfl⟩ := h
      obtain ⟨rfl, hdelegators⟩ := StakingState.slash_spec hslash
      refine ⟨fun key => ?_, fun key hkey => .inl (hdelegators key hkey)⟩
      rw [mem_creditBalance hcredit]
      simp [foundationPayments, paidKeys, and_comm]
  | _ =>
      simp only [applyAction, bind_eq_ok, pure_eq_ok] at h
      obtain ⟨b, hb, rfl⟩ := h
      have hwrites := hpaid b hb
      refine ⟨fun key => ?_, hwrites.delegators⟩
      rw [hwrites.balances]
      simp

/-- Balances are only added, and delegators have balances. -/
theorem Writes.run {α : Type} {f : Ledger → α → Except String Ledger}
    {written : Ledger → α → Address → Prop}
    (hstep : ∀ l a l', f l a = .ok l' → Writes l l' (written l a)) {items : List α}
    {l l' : Ledger} (h : items.foldlM f l = .ok l') :
    (∀ key ∈ l.balances, key ∈ l'.balances) ∧
      ∀ key ∈ l'.staking.delegators, key ∈ l.staking.delegators ∨ key ∈ l'.balances := by
  induction items generalizing l with
  | nil =>
      cases h
      exact ⟨fun _ => id, fun _ => .inl⟩
  | cons a rest ih =>
      simp only [List.foldlM_cons, bind_eq_ok] at h
      obtain ⟨l₁, ha, hrest⟩ := h
      have hwrites := hstep l a l₁ ha
      obtain ⟨hadded, hdelegators⟩ := ih hrest
      refine ⟨fun key hkey => hadded key ((hwrites.balances key).2 (.inl hkey)), ?_⟩
      intro key hkey
      rcases hdelegators key hkey with hbefore | hbalance
      · exact (hwrites.delegators key hbefore).imp_right (hadded key)
      · exact .inr hbalance

section
variable [Crypto]

theorem applySystemEvent_writes {blockTimestamp : ℕ} {l l' : Ledger} {e : ScheduledEvent}
    (h : applySystemEvent blockTimestamp l e = .ok l') :
    Writes l l' fun key => key ∈ paidKeys (foundationPayments e.action) ∨
      key = foundationFeeAddress ∧ TakesPenalty l e := by
  simp only [applySystemEvent, check_bind_eq_ok] at h
  have hmarked := applyAction_writes h.2.2.2
  exact ⟨hmarked.balances, hmarked.delegators⟩

/-! ## Blocks -/

/-- A penalty among the events of the block finds something to take. -/
def Blockchain.TakesPenalty (c : Blockchain) (block : Block) : Prop :=
  ∃ l, applyTransactions c.chainId block.transactions block.producer c.toLedger block.timestamp =
      .ok l ∧
    Sometime (applySystemEvent block.timestamp) IeumChain.TakesPenalty l block.systemEvents

/-- The keys that are in the ledger before the block or written by it. -/
def Blockchain.keysWith (c : Blockchain) (block : Block) : Set Address :=
  {key | key ∈ c.balances ∨ key ∈ block.writtenKeys ∨
    key = foundationFeeAddress ∧ c.TakesPenalty block}

/-- Exactly these keys are in the ledger afterwards. -/
theorem Blockchain.applyBlock_writes {c c' : Blockchain} {block : Block}
    (h : c.applyBlock block = .ok c') :
    (∀ key, key ∈ c'.balances ↔ key ∈ c.keysWith block) ∧
      ∀ key ∈ c'.staking.delegators, key ∈ c.staking.delegators ∨ key ∈ c'.balances := by
  obtain ⟨-, -, -, l, hl, rfl⟩ := applyBlock_eq_ok.1 h
  obtain ⟨l₁, htransactions, hevents, -⟩ := execute_eq_ok.1 hl
  have htransaction : ∀ x tx y, applyTransaction c.chainId block.producer block.timestamp x tx =
      .ok y → Writes x y (· ∈ tx.writtenKeys block.producer) := by
    intro x tx y hxy
    rw [applyTransaction, check_bind_eq_ok] at hxy
    exact runTransaction_writes hxy.2
  obtain ⟨hadded, hdelegators⟩ := Writes.run htransaction htransactions
  obtain ⟨hadded', hdelegators'⟩ :=
    Writes.run (fun x e y => applySystemEvent_writes) hevents
  refine ⟨fun key => ?_, fun key hkey => ?_⟩
  · have hfirst := foldlM_adds (K := fun x => key ∈ x.balances)
      (W := fun tx => key ∈ tx.writtenKeys block.producer) (p := False) (P := fun _ _ => True)
      (fun x tx y hxy => by simp [(htransaction x tx y hxy).balances]) htransactions
    have hsecond := foldlM_adds (K := fun x => key ∈ x.balances)
      (W := fun e => key ∈ paidKeys (foundationPayments e.action))
      (p := key = foundationFeeAddress) (P := IeumChain.TakesPenalty)
      (fun x e y hxy => (applySystemEvent_writes hxy).balances key) hevents
    have hpenalty : c.TakesPenalty block ↔
        Sometime (applySystemEvent block.timestamp) IeumChain.TakesPenalty l₁ block.systemEvents := by
      constructor
      · rintro ⟨l₂, hl₂, hsome⟩
        cases htransactions.symm.trans hl₂
        exact hsome
      · intro hsome
        exact ⟨l₁, htransactions, hsome⟩
    rw [toLedger_push, hsecond, hfirst, keysWith, Set.mem_ofPred_eq, hpenalty, Block.writtenKeys,
      List.mem_append, List.mem_flatMap, List.mem_flatMap]
    simp only [false_and, or_false, or_assoc]
  · rcases hdelegators' key hkey with hbefore | hbalance
    · exact (hdelegators key hbefore).imp_right (hadded' key)
    · exact .inr hbalance

/-! ## When the keys stay sound -/

/-- What the block writes is spelled in its normalized form, and no key without a marker is
another spelling of a key. -/
structure Blockchain.WritesSound (c : Blockchain) (block : Block) : Prop where
  canonical : ∀ key ∈ block.writtenKeys, CanonicalKey key
  bare : ∀ j ∈ c.keysWith block, startsWith j "0x" = false →
    ∀ k ∈ c.keysWith block, normalizeAddress j = normalizeAddress k → j = k

theorem Blockchain.keysSound_iff {c c' : Blockchain} {block : Block}
    (hkeys : KeysCanonical c.toLedger) (h : c.applyBlock block = .ok c') :
    KeysSound c'.toLedger ↔ c.WritesSound block := by
  obtain ⟨hbalances, hdelegators⟩ := applyBlock_writes h
  constructor
  · intro hsound
    refine ⟨fun key hkey => ?_, fun j hj _ k hk heq => ?_⟩
    · exact hsound.canonical.balances key ((hbalances key).2 (.inr (.inl hkey)))
    · exact hsound.single ((hbalances j).2 hj) ((hbalances k).2 hk) heq
  · intro hwrites
    have hcanonical : ∀ key ∈ c'.balances, CanonicalKey key := by
      intro key hkey
      rcases (hbalances key).1 hkey with hbefore | hwritten | ⟨rfl, -⟩
      · exact hkeys.balances key hbefore
      · exact hwrites.canonical key hwritten
      · exact canonicalKey_foundation
    refine ⟨⟨hcanonical, fun key hkey => ?_⟩, fun j hj k hk heq => ?_⟩
    · exact (hdelegators key hkey).elim (hkeys.delegators key) (hcanonical key)
    · -- Two marked keys are their own normalized forms; for the others there is the condition.
      cases hjmarked : startsWith j "0x" with
      | false => exact hwrites.bare j ((hbalances j).1 hj) hjmarked k ((hbalances k).1 hk) heq
      | true =>
          cases hkmarked : startsWith k "0x" with
          | false =>
              exact (hwrites.bare k ((hbalances k).1 hk) hkmarked j ((hbalances j).1 hj)
                heq.symm).symm
          | true =>
              rw [(hcanonical j hj).eq_normalizeAddress hjmarked,
                (hcanonical k hk).eq_normalizeAddress hkmarked, heq]

/-- Along a run, the keys are sound after every block exactly if every block writes them so. -/
theorem Blockchain.keysSound_along_iff {c c' : Blockchain} {blocks : List Block}
    (hkeys : KeysCanonical c.toLedger) (hrun : c.applyBlocks blocks = .ok c') :
    Along applyBlock (fun c block => ∀ c₁, c.applyBlock block = .ok c₁ → KeysSound c₁.toLedger)
        c blocks ↔
      Along applyBlock WritesSound c blocks := by
  induction blocks generalizing c with
  | nil => exact Iff.rfl
  | cons block rest ih =>
      obtain ⟨c₁, hblock, hrest⟩ := applyBlocks_cons.1 hrun
      have hstep := keysSound_iff hkeys hblock
      constructor
      · rintro ⟨hsound, hlater⟩
        have hsound₁ := hsound c₁ hblock
        refine ⟨hstep.1 hsound₁, fun c₂ hc₂ => ?_⟩
        cases hblock.symm.trans hc₂
        exact (ih hsound₁.canonical hrest).1 (hlater c₁ hblock)
      · rintro ⟨hwrites, hlater⟩
        have hsound₁ := hstep.2 hwrites
        refine ⟨fun c₂ hc₂ => ?_, fun c₂ hc₂ => ?_⟩
        · cases hblock.symm.trans hc₂
          exact hsound₁
        · cases hblock.symm.trans hc₂
          exact (ih hsound₁.canonical hrest).2 (hlater c₁ hblock)

end

/-! A transfer to an account that has a balance already, in the mixed-case form that Ethereum
wallets show, and a block that pays an account in lower case. -/

namespace Spelling

local instance spellingCrypto : Crypto := StandIn.crypto StandIn.digest

def shown : Address := "0x7E5F4552091A69125d5DfCb7b8C2659029395Bdf"

def stored : Address := "0x7e5f4552091a69125d5dfcb7b8c2659029395bdf"

def transfer : Transaction :=
  StandIn.signed 1
    { sender := StandIn.address 1, receiver := shown, amount := 5, fee := 0, nonce := 0
      action := .transfer, signature := "" }

def chain : Blockchain := Blockchain.withChainId 21005 [(StandIn.address 1, 100), (stored, 50)]

def block : Block := Block.new 1 chain.tipHash 20 (StandIn.address 2) [transfer]

theorem shown_ne_stored : shown ≠ stored := by decide

theorem normalizeAddress_shown : normalizeAddress shown = stored := by decide

theorem normalizeAddress_stored : normalizeAddress stored = stored := by decide

theorem mem_balances_chain {key : Address} :
    key ∈ chain.balances ↔ key = stored ∨ key = StandIn.address 1 := by
  have hentries : chain.balances = (AList.insert (StandIn.address 1) 100 ∅).insert stored 50 := rfl
  rw [hentries, AList.mem_insert, AList.mem_insert]
  simp

theorem keysCanonical_chain : KeysCanonical chain.toLedger := by
  refine ⟨fun key hkey => ?_, fun key hkey => by cases hkey⟩
  have hentries := mem_balances_chain.1 hkey
  rcases hentries with rfl | rfl
  · intro _
    decide
  · intro hmarked
    rw [StandIn.startsWith_address] at hmarked
    cases hmarked

theorem applyBlock_block : ∃ c', chain.applyBlock block = .ok c' := by
  have hsigned : checkTransactionSignature chain.chainId transfer = .ok () :=
    StandIn.checkTransactionSignature_signed _ _ _ _ rfl
  obtain ⟨l, h⟩ := isOk_iff.1 (by decide : Except.isOk (do
    let l ← runTransaction (StandIn.address 2) 20 chain.toLedger transfer
    validateSupplyCap l
    pure l) = true)
  simp only [bind_eq_ok, pure_eq_ok] at h
  obtain ⟨l₁, hrun, u, hcap, rfl⟩ := h
  have htransactions : block.transactions = [transfer] := rfl
  have hexecute : chain.execute block = .ok l₁ := by
    refine Blockchain.execute_eq_ok.2 ⟨l₁, ?_, rfl, hcap⟩
    rw [htransactions, applyTransactions, List.foldlM_cons, applyTransaction, hsigned, bind_eq_ok]
    exact ⟨l₁, check_bind_eq_ok.2 ⟨rfl, hrun⟩, rfl⟩
  exact ⟨_, Blockchain.applyBlock_eq_ok.2 ⟨rfl, rfl, Block.new_hash .., l₁, hexecute, rfl⟩⟩

/-- The account ends up under two keys, one of them not normalized. -/
theorem account_under_two_keys :
    ∃ c', chain.applyBlock block = .ok c' ∧ KeysCanonical chain.toLedger ∧
      ¬KeysCanonical c'.toLedger ∧ shown ∈ c'.balances ∧ stored ∈ c'.balances ∧
      shown ≠ stored ∧ normalizeAddress shown = normalizeAddress stored := by
  obtain ⟨c', h⟩ := applyBlock_block
  have hkeys := (Blockchain.applyBlock_writes h).1
  have hshown : shown ∈ c'.balances := by
    refine (hkeys shown).2 (.inr (.inl ?_))
    have htransactions : block.transactions = [transfer] := rfl
    have hreceiver : transfer.receiver = shown := rfl
    have haction : transfer.action = .transfer := rfl
    simp [Block.writtenKeys, htransactions, Transaction.writtenKeys, hreceiver, haction]
  have hstored : stored ∈ c'.balances :=
    (hkeys stored).2 (.inl (mem_balances_chain.2 (.inl rfl)))
  refine ⟨c', h, keysCanonical_chain, fun hcanonical => ?_, hshown, hstored,
    shown_ne_stored, normalizeAddress_shown.trans normalizeAddress_stored.symm⟩
  have hself := (hcanonical.balances shown hshown).eq_normalizeAddress (by decide)
  exact shown_ne_stored (hself.trans normalizeAddress_shown)

def funded : Blockchain := Blockchain.withChainId 21005 [(foundationFeeAddress, 50)]

def paying : Block :=
  (Block.new 1 funded.tipHash 20 (StandIn.address 2) []).withSystemEvents [Sample.reward]

theorem mem_balances_funded {key : Address} :
    key ∈ funded.balances ↔ key = foundationFeeAddress := by
  have hentries : funded.balances = AList.insert foundationFeeAddress 50 ∅ := rfl
  rw [hentries, AList.mem_insert]
  simp

theorem keysSound_along_iff_paying :
    ∃ c', funded.applyBlocks [paying] = .ok c' ∧
      Along Blockchain.applyBlock
        (fun c block => ∀ c₁, c.applyBlock block = .ok c₁ → KeysSound c₁.toLedger)
        funded [paying] := by
  obtain ⟨l, h⟩ := isOk_iff.1 (by decide : Except.isOk (do
    let l ← applySystemEvents [Sample.reward] 20 funded.toLedger
    validateSupplyCap l
    pure l) = true)
  simp only [bind_eq_ok, pure_eq_ok] at h
  obtain ⟨l₁, hevents, u, hcap, rfl⟩ := h
  have hexecute : funded.execute paying = .ok l₁ :=
    Blockchain.execute_eq_ok.2 ⟨funded.toLedger, rfl, hevents, hcap⟩
  have happly := Blockchain.applyBlock_eq_ok.2
    ⟨rfl, rfl, Block.withSystemEvents_hash _ _, l₁, hexecute, rfl⟩
  have hrun : funded.applyBlocks [paying] = .ok (funded.push l₁ paying) :=
    Blockchain.applyBlocks_cons.2 ⟨_, happly, rfl⟩
  have hkeys : KeysCanonical funded.toLedger := by
    refine ⟨fun key hkey => ?_, fun key hkey => by cases hkey⟩
    obtain rfl := mem_balances_funded.1 hkey
    exact canonicalKey_foundation
  have hwritten : paying.writtenKeys =
      [foundationFeeAddress, "0x1111111111111111111111111111111111111111"] := by decide
  have hwrites : funded.WritesSound paying := by
    refine ⟨fun key hkey => ?_, fun j hj hbare => ?_⟩
    · rw [hwritten, List.mem_pair] at hkey
      rcases hkey with rfl | rfl
      · exact canonicalKey_foundation
      · intro _
        decide
    · have hmarked : startsWith j "0x" = true := by
        rcases hj with hj | hj | ⟨rfl, -⟩
        · rw [mem_balances_funded.1 hj]
          decide
        · rw [hwritten, List.mem_pair] at hj
          rcases hj with rfl | rfl <;> decide
        · decide
      rw [hmarked] at hbare
      cases hbare
  exact ⟨_, hrun, (Blockchain.keysSound_along_iff hkeys hrun).2 ⟨hwrites, fun _ _ => trivial⟩⟩

end Spelling

end IeumChain
