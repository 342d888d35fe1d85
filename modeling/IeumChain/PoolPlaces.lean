import IeumChain.PoolIndexes

/-!
# The place of one transaction in the pool

A transaction that waits leaves the pool when it is drained, when it is no longer valid,
when another one of the same sender and nonce outbids it, or when it has to make room. One
that is offered finds no place if it is too large or if such another one is there already.
-/
namespace IeumChain

open Outcome MachineWords FiniteMap

/-- What it takes to replace a waiting transaction of the same sender and nonce. -/
def Transaction.Outbids (t other : Transaction) : Prop :=
  saturatingAdd u128Max other.fee (max (other.fee / 10) 1) ≤ t.fee

namespace Mempool

section
variable [Crypto]

/-- Another transaction of the same sender and nonce takes the place of this one. -/
def Displaces (t tx : Transaction) : Prop := t ≠ tx ∧ t.key = tx.key ∧ t.Outbids tx

/-- A waiting transaction keeps this one out. -/
def Bars (other tx : Transaction) : Prop :=
  other ≠ tx ∧ (other.id = tx.id ∨ other.key = tx.key ∧ ¬tx.Outbids other)

/-- When the pool is offered `t`, another transaction comes into the way of `tx`. -/
def Disturbs (pool : Mempool) (tx t : Transaction) : Prop :=
  tx ∈ pool.transactions ∧ Displaces t tx ∨ t = tx ∧ ∃ other ∈ pool.transactions, Bars other tx

/-- When the pool is offered `t`, the limits refuse `tx` or drop it. -/
def Crowds (pool : Mempool) (tx t : Transaction) : Prop :=
  t = tx ∧ pool.maxBytes < tx.size ∨
    tx ∈ pool.transactions ∧ tx.key ≠ t.key ∧
      ∃ pool', pool.add t = .ok pool' ∧ tx ∉ pool'.transactions

/-- Whether it happens to `tx` at one of the offers, each made to what those before it left. -/
def AtSomeOffer (happens : Mempool → Transaction → Prop) : Mempool → List Transaction → Prop
  | _, [] => False
  | pool, t :: rest => happens pool t ∨ AtSomeOffer happens (pool.offer t) rest

/-- A pool in use: sound, and with limits in the word that counts the bytes. -/
structure Working (pool : Mempool) : Prop where
  sound : pool.Sound
  count : 0 < pool.maxTransactions
  bytes : 0 < pool.maxBytes
  word : pool.maxBytes < u64Max

variable {pool pool' : Mempool} {t tx : Transaction}

theorem working_default : default.Working :=
  ⟨sound_withLimits _ _, by decide, by decide, by decide⟩

theorem Working.bounded (h : pool.Working) : pool.Bounded := ⟨h.count, h.word.le⟩

theorem Working.congr (h : pool.Working) (hsound : pool'.Sound)
    (hcount : pool'.maxTransactions = pool.maxTransactions)
    (hbytes : pool'.maxBytes = pool.maxBytes) : pool'.Working := by
  refine ⟨hsound, ?_, ?_, ?_⟩
  · rw [hcount]
    exact h.count
  · rw [hbytes]
    exact h.bytes
  · rw [hbytes]
    exact h.word

/-! ## One offer -/

theorem offer_eq (pool : Mempool) (t : Transaction) :
    pool.offer t = ((addInPlace t).run.run pool).2 := by
  rw [addInPlace_run, offer]
  cases pool.add t <;> rfl

theorem Working.offer (h : pool.Working) (t : Transaction) : (pool.offer t).Working := by
  rw [offer_eq]
  obtain ⟨hsound, hcount, hbytes⟩ := h.sound.addInPlace h.bounded t (.inl h.word)
  exact h.congr hsound hcount hbytes

theorem Working.offers (h : pool.Working) (txs : List Transaction) :
    (txs.foldl Mempool.offer pool).Working := by
  induction txs generalizing pool with
  | nil => exact h
  | cons t rest ih => exact ih (h.offer t)

/-- The index finds the transaction of a sender and nonce. -/
theorem Sound.find_key (h : pool.Sound) (htx : tx ∈ pool.transactions) :
    pool.senderNonce.lookup tx.key = some tx.id ∧
      pool.transactions.find? (·.id = tx.id) = some tx := by
  have hhole : some tx.key ≠ none := Option.some_ne_none _
  refine ⟨(h.indexed.senderNonce tx.key tx.id hhole).2 ⟨tx, htx, rfl, rfl⟩, ?_⟩
  cases hfind : pool.transactions.find? (·.id = tx.id) with
  | none =>
      have hnone := List.find?_eq_none.1 hfind tx htx
      simp at hnone
  | some found =>
      have hid : found.id = tx.id := by simpa using List.find?_some hfind
      rw [h.indexed.eq_of_id (List.mem_of_find?_eq_some hfind) htx hid]

/-- Only who pays enough replaces a waiting transaction. -/
theorem Sound.outbids_of_add (h : pool.Sound) (htx : tx ∈ pool.transactions) (hkey : t.key = tx.key)
    (hadd : pool.add t = .ok pool') : t ≠ tx ∧ t.Outbids tx := by
  obtain ⟨hid, -, freed, hreplaced, -⟩ := add_eq_ok.1 hadd
  constructor
  · rintro rfl
    rw [h.indexed.ids, List.mem_toFinset] at hid
    exact hid (List.mem_map_of_mem htx)
  · obtain ⟨hlookup, hfind⟩ := h.find_key htx
    have hsame : (t.sender, t.nonce) = tx.key := hkey
    unfold Mempool.replaced at hreplaced
    rw [hsame, hlookup] at hreplaced
    simp only [bind_eq_ok, okOr_eq_ok, hfind, Option.some.injEq, exists_eq_left', exists_const,
      reject_eq_ok, not_lt] at hreplaced
    exact hreplaced.1

/-- A transaction that nothing bars finds a place unless it is too large. -/
theorem Sound.exists_add_of_not_barred (h : pool.Sound) (htx : tx ∉ pool.transactions)
    (hsize : tx.size ≤ pool.maxBytes) (hbars : ∀ other ∈ pool.transactions, ¬Bars other tx) :
    ∃ pool', pool.add tx = .ok pool' := by
  have hother : ∀ other ∈ pool.transactions, other ≠ tx := by
    rintro other hmem rfl
    exact htx hmem
  have hfresh : tx.id ∉ pool.ids := by
    rw [h.indexed.ids, List.mem_toFinset, List.mem_map]
    rintro ⟨other, hmem, hid⟩
    exact hbars other hmem ⟨hother other hmem, .inl hid⟩
  have hreplaced : ∃ freed, pool.replaced tx = .ok freed := by
    cases hlookup : pool.senderNonce.lookup tx.key with
    | none =>
        have hsame : (tx.sender, tx.nonce) = tx.key := rfl
        exact ⟨pool, by rw [Mempool.replaced, hsame, hlookup]⟩
    | some previousId =>
        have hhole : some tx.key ≠ none := Option.some_ne_none _
        obtain ⟨previous, hmem, hkey, rfl⟩ :=
          (h.indexed.senderNonce tx.key previousId hhole).1 hlookup
        have houtbids : tx.Outbids previous := by
          by_contra hnot
          exact hbars previous hmem ⟨hother previous hmem, .inr ⟨hkey, hnot⟩⟩
        obtain ⟨-, hfind⟩ := h.find_key hmem
        have hsame : (tx.sender, tx.nonce) = tx.key := rfl
        unfold Mempool.replaced
        rw [hsame, hlookup]
        simp only [bind_eq_ok, okOr_eq_ok, hfind, Option.some.injEq, exists_eq_left', exists_const,
          reject_eq_ok, not_lt, pure_eq_ok]
        exact ⟨_, houtbids, rfl⟩
  obtain ⟨freed, hfreed⟩ := hreplaced
  exact ⟨_, add_eq_ok.2 ⟨hfresh, hsize, freed, hfreed, rfl⟩⟩

theorem mem_add_self (hadd : pool.add tx = .ok pool') : tx ∈ pool'.transactions := by
  obtain ⟨-, -, freed, -, rfl⟩ := add_eq_ok.1 hadd
  exact List.mem_append_right _ (List.mem_singleton_self tx)

/-- A transaction keeps or takes its place unless it is disturbed or the limits stop it. -/
theorem Working.mem_offer (h : pool.Working) (htx : tx ∈ pool.transactions ∨ t = tx)
    (hundisturbed : ¬pool.Disturbs tx t) :
    tx ∈ (pool.offer t).transactions ∨ pool.Crowds tx t := by
  by_cases hmem : tx ∈ pool.transactions
  · rw [Mempool.offer]
    cases hadd : pool.add t with
    | error e => exact .inl hmem
    | ok pool' =>
        by_cases hkey : t.key = tx.key
        · obtain ⟨hne, houtbids⟩ := h.sound.outbids_of_add hmem hkey hadd
          exact absurd (.inl ⟨hmem, hne, hkey, houtbids⟩) hundisturbed
        · by_cases hkept : tx ∈ pool'.transactions
          · exact .inl hkept
          · exact .inr (.inr ⟨hmem, Ne.symm hkey, pool', hadd, hkept⟩)
  · obtain rfl : t = tx := htx.resolve_left hmem
    by_cases hsize : pool.maxBytes < t.size
    · exact .inr (.inl ⟨rfl, hsize⟩)
    · have hbars : ∀ other ∈ pool.transactions, ¬Bars other t := fun other hother hbars =>
        hundisturbed (.inr ⟨rfl, other, hother, hbars⟩)
      obtain ⟨pool', hadd⟩ := h.sound.exists_add_of_not_barred hmem (not_lt.1 hsize) hbars
      rw [Mempool.offer, hadd]
      exact .inl (mem_add_self hadd)

/-! ## Many offers -/

theorem Working.mem_offers (h : pool.Working) {txs : List Transaction}
    (htx : tx ∈ pool.transactions ∨ tx ∈ txs)
    (hundisturbed : ¬AtSomeOffer (fun pool => pool.Disturbs tx) pool txs) :
    tx ∈ (txs.foldl Mempool.offer pool).transactions ∨
      AtSomeOffer (fun pool => pool.Crowds tx) pool txs := by
  induction txs generalizing pool with
  | nil => exact .inl (htx.resolve_right List.not_mem_nil)
  | cons t rest ih =>
      rw [AtSomeOffer, not_or] at hundisturbed
      have hlater := fun hplace => ih (h.offer t) hplace hundisturbed.2
      by_cases hhere : tx ∈ pool.transactions ∨ t = tx
      · rcases h.mem_offer hhere hundisturbed.1 with hkept | hcrowded
        · exact (hlater (.inl hkept)).imp_right .inr
        · exact .inr (.inl hcrowded)
      · rw [not_or] at hhere
        have hrest : tx ∈ rest := by
          rcases htx with hmem | hmem
          · exact absurd hmem hhere.1
          · exact (List.mem_cons.1 hmem).resolve_left fun heq => hhere.2 heq.symm
        exact (hlater (.inr hrest)).imp_right .inr

/-! ## Draining and restoring -/

theorem drained_perm (pool : Mempool) (limit : ℕ) :
    ((pool.drain limit).1.transactions ++ (pool.drain limit).2).Perm pool.transactions := by
  obtain ⟨htaken, hleft⟩ := drain_spec pool limit
  rw [htaken, hleft]
  refine List.perm_append_comm.trans ?_
  rw [List.take_append_drop]
  exact List.perm_insertionSort takenBefore pool.transactions

theorem Working.drain (h : pool.Working) (limit : ℕ) : (pool.drain limit).1.Working := by
  obtain ⟨hsound, hcount, hbytes⟩ := h.sound.drain limit
  exact h.congr hsound hcount hbytes

theorem Working.retainValid (h : pool.Working) (valid : Transaction → Bool) :
    (pool.retainValid valid).Working := by
  obtain ⟨-, hsound, hcount, hbytes⟩ := h.sound.retainValid h.bounded h.bytes valid
  exact h.congr hsound hcount hbytes

/-- What was drained and is put back finds its place again. -/
theorem Working.putBack (h : pool.Working) (limit : ℕ) (keep : Transaction → Bool) :
    (((pool.drain limit).2.filter keep).foldl Mempool.offer (pool.drain limit).1).transactions =
      (pool.drain limit).1.transactions ++ (pool.drain limit).2.filter keep := by
  obtain ⟨hsound, hcount, hbytes⟩ := h.sound.drain limit
  have hsub : ((pool.drain limit).1.transactions ++ (pool.drain limit).2.filter keep).Subperm
      pool.transactions :=
    ((List.Sublist.refl _).append List.filter_sublist).subperm.trans
      (drained_perm pool limit).subperm
  have hnodup : ∀ {β : Type} (f : Transaction → β), (pool.transactions.map f).Nodup →
      (((pool.drain limit).1.transactions ++ (pool.drain limit).2.filter keep).map f).Nodup := by
    intro β f hall
    obtain ⟨l, hperm, hsublist⟩ := hsub
    exact ((hperm.map f).nodup_iff).1 ((hsublist.map f).nodup hall)
  refine (hsound.foldl_offer (hbytes.le.trans h.word.le) _
    (hnodup _ h.sound.indexed.distinctIds) (hnodup _ h.sound.indexed.distinctKeys) ?_ ?_).1
  · rw [hcount]
    exact hsub.length_le.trans h.sound.withinLimits.count
  · rw [hbytes]
    exact (bytesOf_le_of_subperm hsub).trans h.sound.bytesOf_le

end

end Mempool

end IeumChain
