import IeumChain.Mempool

/-!
# The indexes of the pool

The pool keeps its transactions in a list, and beside the list their identifiers, the
transaction of every sender and nonce, and the number of bytes they take. A replacement
leaves the entry of its sender and nonce behind until the new transaction overwrites it;
between the two the other entries are still right.
-/
namespace IeumChain

open ByteCodec Text Outcome MachineWords FiniteMap

theorem Transaction.size_le (tx : Transaction) : tx.size ≤ 4 * tx.json.length := by
  rw [Transaction.size]
  induction tx.json with
  | nil => exact le_rfl
  | cons c chars ih =>
      have hc := Char.utf8Size_le_four c
      rw [List.map_cons, List.sum_cons, List.length_cons]
      omega

/-- What the pool knows a waiting transaction by. -/
def Transaction.key (tx : Transaction) : String × ℕ := (tx.sender, tx.nonce)

namespace Mempool

def bytesOf (transactions : List Transaction) : ℕ := (transactions.map (·.size)).sum

theorem bytesOf_perm {l l' : List Transaction} (h : l.Perm l') : bytesOf l = bytesOf l' :=
  (h.map _).sum_eq

theorem bytesOf_append (l l' : List Transaction) :
    bytesOf (l ++ l') = bytesOf l + bytesOf l' := by
  rw [bytesOf, List.map_append, List.sum_append, ← bytesOf, ← bytesOf]

@[simp] theorem bytesOf_nil : bytesOf [] = 0 := rfl

theorem bytesOf_concat (l : List Transaction) (tx : Transaction) :
    bytesOf (l ++ [tx]) = bytesOf l + tx.size := by
  rw [bytesOf_append, bytesOf, bytesOf, List.map_singleton, List.sum_singleton]

theorem bytesOf_singleton (tx : Transaction) : bytesOf [tx] = tx.size := by
  simp [bytesOf]

theorem bytesOf_le_of_subperm {l l' : List Transaction} (h : l.Subperm l') :
    bytesOf l ≤ bytesOf l' := by
  obtain ⟨m, hperm, hsub⟩ := h
  rw [← bytesOf_perm hperm]
  exact (hsub.map _).sum_le_sum fun _ _ => Nat.zero_le _

section
variable [Crypto]

/-- The indexes agree with the transactions, except for the entry of one sender and nonce,
which no transaction has. -/
structure IndexedBut (hole : Option (String × ℕ)) (pool : Mempool) : Prop where
  ids : pool.ids = (pool.transactions.map (·.id)).toFinset
  distinctIds : (pool.transactions.map (·.id)).Nodup
  senderNonce : ∀ key id, some key ≠ hole →
    (pool.senderNonce.lookup key = some id ↔ ∃ tx ∈ pool.transactions, tx.key = key ∧ tx.id = id)
  distinctKeys : (pool.transactions.map (·.key)).Nodup
  free : ∀ tx ∈ pool.transactions, some tx.key ≠ hole
  totalBytes : pool.totalBytes = bytesOf pool.transactions

/-- The identifiers are those of the transactions, every sender and nonce leads to its only
transaction, and the byte count is their size. -/
abbrev Indexed (pool : Mempool) : Prop := IndexedBut none pool

structure WithinLimits (pool : Mempool) : Prop where
  count : pool.transactions.length ≤ pool.maxTransactions
  bytes : pool.totalBytes ≤ pool.maxBytes

/-- The limits of a pool, at least one and in the word that counts the bytes. -/
structure Bounded (pool : Mempool) : Prop where
  maxTransactions : 0 < pool.maxTransactions
  word : pool.maxBytes ≤ u64Max

variable {hole : Option (String × ℕ)} {pool pool' : Mempool} {tx : Transaction}

theorem indexed_withLimits (maxTransactions maxBytes : ℕ) :
    (withLimits maxTransactions maxBytes).Indexed where
  ids := rfl
  distinctIds := List.nodup_nil
  senderNonce key id _ := by simp [withLimits]
  distinctKeys := List.nodup_nil
  free tx h := by cases h
  totalBytes := rfl

theorem IndexedBut.nodup (h : IndexedBut hole pool) : pool.transactions.Nodup :=
  .of_map _ h.distinctIds

theorem IndexedBut.eq_of_id (h : IndexedBut hole pool) {a b : Transaction}
    (ha : a ∈ pool.transactions) (hb : b ∈ pool.transactions) (heq : a.id = b.id) : a = b :=
  List.inj_on_of_nodup_map h.distinctIds ha hb heq

/-- The order of the transactions does not matter. -/
theorem IndexedBut.perm (h : IndexedBut hole pool) {transactions : List Transaction}
    (hperm : transactions.Perm pool.transactions) :
    IndexedBut hole { pool with transactions } where
  ids := by
    rw [h.ids]
    exact (List.toFinset_eq_of_perm _ _ (hperm.map _)).symm
  distinctIds := (hperm.map _).nodup_iff.2 h.distinctIds
  senderNonce key id hkey := by simp only [h.senderNonce key id hkey, hperm.mem_iff]
  distinctKeys := (hperm.map _).nodup_iff.2 h.distinctKeys
  free tx htx := h.free tx (hperm.mem_iff.1 htx)
  totalBytes := by
    rw [h.totalBytes]
    exact (bytesOf_perm hperm).symm

/-! ## Taking one transaction out -/

/-- Without one transaction; the entry of its sender and nonce may be gone or left behind. -/
theorem IndexedBut.without (h : IndexedBut hole pool) {rest : List Transaction}
    (hperm : pool.transactions.Perm (tx :: rest)) (senderNonce : HashMap (String × ℕ) String)
    {hole' : Option (String × ℕ)} (hhole : hole' = hole ∨ hole = none ∧ hole' = some tx.key)
    (hothers : ∀ key, key ≠ tx.key → senderNonce.lookup key = pool.senderNonce.lookup key)
    (hgone : hole' = hole → senderNonce.lookup tx.key = none) :
    IndexedBut hole' { pool with
      transactions := rest, ids := pool.ids.erase tx.id, senderNonce
      totalBytes := pool.totalBytes - tx.size } := by
  have hids := (hperm.map (·.id)).nodup_iff.1 h.distinctIds
  have hkeys := (hperm.map (·.key)).nodup_iff.1 h.distinctKeys
  rw [List.map_cons, List.nodup_cons] at hids hkeys
  have hmem : ∀ t, t ∈ pool.transactions ↔ t = tx ∨ t ∈ rest := fun t => by
    rw [hperm.mem_iff, List.mem_cons]
  have hne : ∀ t ∈ rest, t.key ≠ tx.key := fun t ht heq =>
    hkeys.1 (List.mem_map.2 ⟨t, ht, heq⟩)
  have hweak : ∀ key, some key ≠ hole' → some key ≠ hole := by
    rintro key hkey rfl
    rcases hhole with rfl | ⟨hnone, -⟩
    · exact hkey rfl
    · cases hnone
  refine ⟨?_, hids.2, ?_, hkeys.2, ?_, ?_⟩
  · change pool.ids.erase tx.id = _
    rw [h.ids, List.toFinset_eq_of_perm _ _ (hperm.map _), List.map_cons, List.toFinset_cons,
      Finset.erase_insert (by simpa using hids.1)]
  · intro key id hkey
    change senderNonce.lookup key = some id ↔ ∃ t ∈ rest, _
    by_cases heq : key = tx.key
    · subst heq
      have hsame : hole' = hole := hhole.resolve_right fun hnew => hkey hnew.2.symm
      rw [hgone hsame]
      constructor
      · intro hnone
        cases hnone
      · rintro ⟨t, ht, htkey, -⟩
        exact absurd htkey (hne t ht)
    · rw [hothers key heq, h.senderNonce key id (hweak key hkey)]
      constructor
      · rintro ⟨t, ht, htkey, htid⟩
        rcases (hmem t).1 ht with rfl | ht
        · exact absurd htkey.symm heq
        · exact ⟨t, ht, htkey, htid⟩
      · rintro ⟨t, ht, htkey, htid⟩
        exact ⟨t, (hmem t).2 (.inr ht), htkey, htid⟩
  · intro t ht
    have hfree := h.free t ((hmem t).2 (.inr ht))
    rcases hhole with rfl | ⟨-, rfl⟩
    · exact hfree
    · exact fun heq => hne t ht (Option.some.inj heq)
  · change pool.totalBytes - tx.size = bytesOf rest
    rw [h.totalBytes, bytesOf_perm hperm, ← List.singleton_append, bytesOf_append]
    simp [bytesOf]

omit [Crypto] in
theorem perm_eraseIdx {l : List Transaction} {position : ℕ} (h : l[position]? = some tx) :
    l.Perm (tx :: l.eraseIdx position) := by
  obtain ⟨hlt, rfl⟩ := List.getElem?_eq_some_iff.1 h
  exact (List.getElem_cons_eraseIdx_perm hlt).symm

theorem removeAt_eq {position : ℕ} (h : pool.transactions[position]? = some tx) :
    pool.removeAt position = { pool with
      transactions := pool.transactions.eraseIdx position
      ids := pool.ids.erase tx.id
      senderNonce := pool.senderNonce.erase tx.key
      totalBytes := pool.totalBytes - tx.size } := by
  rw [removeAt, h, Transaction.key]

theorem IndexedBut.removeAt (h : IndexedBut hole pool) (position : ℕ) :
    IndexedBut hole (pool.removeAt position) := by
  cases hat : pool.transactions[position]? with
  | none =>
      rw [Mempool.removeAt, hat]
      exact h
  | some tx =>
      rw [removeAt_eq hat]
      exact h.without (perm_eraseIdx hat) _ (.inl rfl)
        (fun key hkey => AList.lookup_erase_ne hkey) fun _ => AList.lookup_erase _ _

theorem removeAt_limits (pool : Mempool) (position : ℕ) :
    (pool.removeAt position).maxTransactions = pool.maxTransactions ∧
      (pool.removeAt position).maxBytes = pool.maxBytes := by
  unfold Mempool.removeAt
  split
  · exact ⟨rfl, rfl⟩
  · exact ⟨rfl, rfl⟩

theorem sublist_removeAt (pool : Mempool) (position : ℕ) :
    (pool.removeAt position).transactions.Sublist pool.transactions := by
  unfold Mempool.removeAt
  split
  · exact .refl _
  · exact List.eraseIdx_sublist ..

theorem length_removeAt {position : ℕ} (h : position < pool.transactions.length) :
    (pool.removeAt position).transactions.length + 1 = pool.transactions.length := by
  rw [removeAt_eq (List.getElem?_eq_getElem h)]
  have := List.length_eraseIdx_add_one h
  omega

/-! ## Making room -/

omit [Crypto] in
/-- Searching on from a cheapest transaction of what has been seen. -/
theorem cheapestFrom_spec (seen rest : List Transaction) {best : ℕ} {bestTx : Transaction}
    (hbest : seen[best]? = some bestTx) (hcheapest : ∀ t ∈ seen, bestTx.fee ≤ t.fee) :
    ∃ tx, (seen ++ rest)[cheapestFrom best bestTx seen.length rest]? = some tx ∧
      ∀ t ∈ seen ++ rest, tx.fee ≤ t.fee := by
  induction rest generalizing seen best bestTx with
  | nil =>
      rw [List.append_nil]
      exact ⟨bestTx, hbest, hcheapest⟩
  | cons t rest ih =>
      have hlt : best < seen.length := (List.getElem?_eq_some_iff.1 hbest).1
      have hlength : (seen ++ [t]).length = seen.length + 1 := by simp
      rw [List.append_cons, cheapestFrom, ← hlength]
      split_ifs with hfee
      · refine ih (seen ++ [t]) (by simp) fun u hu => ?_
        rcases List.mem_append.1 hu with hu | hu
        · exact hfee.le.trans (hcheapest u hu)
        · exact (congrArg Transaction.fee (List.mem_singleton.1 hu)).ge
      · refine ih (seen ++ [t]) (by rw [List.getElem?_append_left hlt, hbest]) fun u hu => ?_
        rcases List.mem_append.1 hu with hu | hu
        · exact hcheapest u hu
        · rw [List.mem_singleton.1 hu]
          exact not_lt.1 hfee

omit [Crypto] in
theorem cheapest_spec {l : List Transaction} {position : ℕ} (h : cheapest l = some position) :
    ∃ tx, l[position]? = some tx ∧ ∀ t ∈ l, tx.fee ≤ t.fee := by
  cases l with
  | nil => cases h
  | cons t rest =>
      cases h
      exact cheapestFrom_spec [t] rest rfl fun u hu => by rw [List.mem_singleton.1 hu]

/-- These transactions leave room for another one, by the test of the pool. -/
def RoomFor (pool : Mempool) (transactions : List Transaction) (size : ℕ) : Prop :=
  transactions.length < pool.maxTransactions ∧
    saturatingAdd u64Max (bytesOf transactions) size ≤ pool.maxBytes

omit [Crypto] in
theorem RoomFor.of_subperm {transactions transactions' : List Transaction} {size : ℕ}
    (h : pool.RoomFor transactions size) (hsub : transactions'.Subperm transactions) :
    pool.RoomFor transactions' size := by
  have hlength := hsub.length_le
  have hbytes := bytesOf_le_of_subperm hsub
  unfold RoomFor saturatingAdd at h ⊢
  omega

omit [Crypto] in
theorem roomFor_of_fits {transactions : List Transaction} {size : ℕ}
    (hcount : transactions.length < pool.maxTransactions)
    (hbytes : bytesOf transactions + size ≤ pool.maxBytes) : pool.RoomFor transactions size :=
  ⟨hcount, (min_le_left _ _).trans hbytes⟩

theorem IndexedBut.full_iff (h : IndexedBut hole pool) (size : ℕ) :
    (pool.maxTransactions ≤ pool.transactions.length ∨
      pool.maxBytes < saturatingAdd u64Max pool.totalBytes size) ↔
        ¬pool.RoomFor pool.transactions size := by
  rw [h.totalBytes, RoomFor]
  omega

/-- What making room leads to. -/
structure Roomy (pool : Mempool) (size : ℕ) (room : Mempool) : Prop where
  limits : room.maxTransactions = pool.maxTransactions ∧ room.maxBytes = pool.maxBytes
  sublist : room.transactions.Sublist pool.transactions
  roomFor : room.RoomFor room.transactions size

omit [Crypto] in
theorem roomFor_congr (h : pool'.maxTransactions = pool.maxTransactions ∧
    pool'.maxBytes = pool.maxBytes) {transactions : List Transaction} {size : ℕ} :
    pool'.RoomFor transactions size ↔ pool.RoomFor transactions size := by
  rw [RoomFor, RoomFor, h.1, h.2]

theorem IndexedBut.makeRoom (h : IndexedBut hole pool) (hbounded : pool.Bounded) (size turns : ℕ)
    (hsize : size ≤ pool.maxBytes) (hturns : pool.transactions.length ≤ turns) :
    IndexedBut hole (makeRoom size turns pool) ∧ pool.Roomy size (makeRoom size turns pool) := by
  induction turns generalizing pool with
  | zero =>
      have hnil : pool.transactions = [] := List.length_eq_zero_iff.1 (Nat.le_zero.1 hturns)
      refine ⟨h, ⟨rfl, rfl⟩, .refl _, ?_⟩
      rw [Mempool.makeRoom, RoomFor, hnil]
      refine ⟨hbounded.maxTransactions, ?_⟩
      rw [bytesOf_nil, saturatingAdd, Nat.zero_add]
      exact (min_le_left _ _).trans hsize
  | succ turns ih =>
      rw [Mempool.makeRoom]
      split_ifs with hfull
      · cases hcheapest : cheapest pool.transactions with
        | none =>
            -- An empty pool is not full.
            have hnil : pool.transactions = [] := by
              cases htransactions : pool.transactions with
              | nil => rfl
              | cons t rest =>
                  rw [htransactions] at hcheapest
                  cases hcheapest
            rw [h.full_iff, RoomFor, hnil, bytesOf_nil, saturatingAdd, Nat.zero_add] at hfull
            exact absurd ⟨hbounded.maxTransactions, (min_le_left _ _).trans hsize⟩ hfull
        | some position =>
            obtain ⟨t, hat, -⟩ := cheapest_spec hcheapest
            have hlt : position < pool.transactions.length := (List.getElem?_eq_some_iff.1 hat).1
            have hlength := length_removeAt hlt
            have hlimits := removeAt_limits pool position
            obtain ⟨hindexed, hroomy⟩ := ih (h.removeAt position)
              ⟨hlimits.1 ▸ hbounded.maxTransactions, hlimits.2 ▸ hbounded.word⟩
              (hlimits.2 ▸ hsize) (by omega)
            exact ⟨hindexed, ⟨hroomy.limits.1.trans hlimits.1, hroomy.limits.2.trans hlimits.2⟩,
              hroomy.sublist.trans (sublist_removeAt pool position), hroomy.roomFor⟩
      · rw [h.full_iff, not_not] at hfull
        exact ⟨h, ⟨rfl, rfl⟩, .refl _, hfull⟩

/-! ## Adding -/

/-- The transaction that gives way has left the list and the identifiers, but its sender and
nonce still lead to it. -/
theorem Indexed.replaced (h : pool.Indexed) (hreplaced : pool.replaced tx = .ok pool') :
    IndexedBut (some tx.key) pool' ∧
      (pool'.maxTransactions = pool.maxTransactions ∧ pool'.maxBytes = pool.maxBytes) ∧
      pool'.transactions.Sublist pool.transactions ∧
      ∀ t ∈ pool.transactions, t.key ≠ tx.key → t ∈ pool'.transactions := by
  unfold Mempool.replaced at hreplaced
  cases hlookup : pool.senderNonce.lookup (tx.sender, tx.nonce) with
  | none =>
      rw [hlookup] at hreplaced
      cases hreplaced
      refine ⟨⟨h.ids, h.distinctIds, fun key id _ => h.senderNonce key id nofun, h.distinctKeys, ?_,
        h.totalBytes⟩, ⟨rfl, rfl⟩, .refl _, fun t ht _ => ht⟩
      intro t ht heq
      have hfound := (h.senderNonce t.key t.id nofun).2 ⟨t, ht, rfl, rfl⟩
      rw [Option.some.inj heq, Transaction.key, hlookup] at hfound
      cases hfound
  | some previousId =>
      rw [hlookup] at hreplaced
      simp only [bind_eq_ok, exists_const, reject_eq_ok, okOr_eq_ok, pure_eq_ok] at hreplaced
      obtain ⟨previous, hfind, -, rfl⟩ := hreplaced
      have hprevious : previous ∈ pool.transactions := List.mem_of_find?_eq_some hfind
      have hid : previous.id = previousId := by simpa using List.find?_some hfind
      have hkey : previous.key = tx.key := by
        obtain ⟨owner, howner, hkey, hownerId⟩ :=
          (h.senderNonce tx.key previousId nofun).1 hlookup
        rwa [h.eq_of_id hprevious howner (hid.trans hownerId.symm)]
      obtain ⟨erased, before, after, -, herasedId, hlist, herase⟩ :=
        List.exists_of_eraseP hprevious (p := fun t => t.id = previousId) (by simpa using hid)
      have herased : erased ∈ pool.transactions := by
        rw [hlist]
        exact List.mem_append_right _ (List.mem_cons_self ..)
      obtain rfl : erased = previous :=
        h.eq_of_id herased hprevious ((of_decide_eq_true herasedId).trans hid.symm)
      have hperm : pool.transactions.Perm (erased :: (before ++ after)) := by
        rw [hlist]
        exact List.perm_middle
      have hwithout := h.without hperm pool.senderNonce (.inr ⟨rfl, rfl⟩)
        (fun _ _ => rfl) nofun
      rw [hid, hkey, ← herase] at hwithout
      refine ⟨hwithout, ⟨rfl, rfl⟩, List.eraseP_sublist, fun t ht hne => ?_⟩
      rcases List.mem_cons.1 (hperm.mem_iff.1 ht) with rfl | ht
      · exact absurd hkey hne
      · rwa [herase]

/-- The new transaction fills the place that was kept for it. -/
theorem IndexedBut.push (h : IndexedBut (some tx.key) pool) (hid : tx.id ∉ pool.ids)
    (hword : pool.totalBytes + tx.size ≤ u64Max) :
    Indexed { pool with
      transactions := pool.transactions ++ [tx]
      ids := insert tx.id pool.ids
      senderNonce := pool.senderNonce.insert tx.key tx.id
      totalBytes := saturatingAdd u64Max pool.totalBytes tx.size } where
  ids := by simp [h.ids]
  distinctIds := by
    rw [h.ids, List.mem_toFinset] at hid
    rw [List.map_append, List.map_singleton, ← List.concat_eq_append]
    exact h.distinctIds.concat hid
  senderNonce key id _ := by
    simp only [List.mem_append, List.mem_singleton, or_and_right, exists_or, exists_eq_left]
    by_cases hkey : key = tx.key
    · subst hkey
      rw [AList.lookup_insert, Option.some.injEq]
      constructor
      · exact fun heq => .inr ⟨rfl, heq⟩
      · rintro (⟨t, ht, heq, -⟩ | ⟨-, heq⟩)
        · exact absurd (congrArg some heq) (h.free t ht)
        · exact heq
    · rw [AList.lookup_insert_ne hkey, h.senderNonce key id fun heq => hkey (Option.some.inj heq)]
      exact ⟨.inl, fun hor => hor.resolve_right fun hnew => hkey hnew.1.symm⟩
  distinctKeys := by
    rw [List.map_append, List.map_singleton, ← List.concat_eq_append]
    refine h.distinctKeys.concat fun hmem => ?_
    obtain ⟨t, ht, heq⟩ := List.mem_map.1 hmem
    exact h.free t ht (congrArg some heq)
  free tx _ := nofun
  totalBytes := by
    rw [saturatingAdd, min_eq_left hword, h.totalBytes, bytesOf_concat]

/-- What a successful call does. -/
theorem add_eq_ok : pool.add tx = .ok pool' ↔
    tx.id ∉ pool.ids ∧ tx.size ≤ pool.maxBytes ∧ ∃ freed, pool.replaced tx = .ok freed ∧
      let room := makeRoom tx.size freed.transactions.length freed
      { room with
        transactions := room.transactions ++ [tx]
        ids := insert tx.id room.ids
        senderNonce := room.senderNonce.insert tx.key tx.id
        totalBytes := saturatingAdd u64Max room.totalBytes tx.size } = pool' := by
  simp only [add, bind_eq_ok, exists_const, reject_eq_ok, pure_eq_ok, not_lt, Transaction.key]

/-- A successful call keeps a sublist of what waited, of which only the transaction with the
sender and nonce of the new one is missing before room is made. -/
structure Added (pool : Mempool) (tx : Transaction) (freed room pool' : Mempool) : Prop where
  indexedFreed : IndexedBut (some tx.key) freed
  indexedRoom : IndexedBut (some tx.key) room
  roomy : freed.Roomy tx.size room
  sublist : freed.transactions.Sublist pool.transactions
  kept : ∀ t ∈ pool.transactions, t.key ≠ tx.key → t ∈ freed.transactions
  limits : pool'.maxTransactions = pool.maxTransactions ∧ pool'.maxBytes = pool.maxBytes ∧
    freed.maxTransactions = pool.maxTransactions ∧ freed.maxBytes = pool.maxBytes
  transactions : pool'.transactions = room.transactions ++ [tx]
  totalBytes : pool'.totalBytes = saturatingAdd u64Max room.totalBytes tx.size
  indexed : bytesOf pool'.transactions ≤ u64Max → pool'.Indexed

theorem Indexed.add (h : pool.Indexed) (hbounded : pool.Bounded) (hadd : pool.add tx = .ok pool') :
    ∃ freed room, room = makeRoom tx.size freed.transactions.length freed ∧
      Added pool tx freed room pool' := by
  obtain ⟨hid, hsize, freed, hreplaced, rfl⟩ := add_eq_ok.1 hadd
  obtain ⟨hfreed, hlimits, hsub, hkept⟩ := h.replaced hreplaced
  obtain ⟨hroom, hroomy⟩ := hfreed.makeRoom
    ⟨hlimits.1 ▸ hbounded.maxTransactions, hlimits.2 ▸ hbounded.word⟩ tx.size
    freed.transactions.length (hlimits.2 ▸ hsize) le_rfl
  refine ⟨freed, _, rfl, hfreed, hroom, hroomy, hsub, hkept,
    ⟨hroomy.limits.1.trans hlimits.1, hroomy.limits.2.trans hlimits.2, hlimits⟩, rfl, rfl, ?_⟩
  intro hword
  refine hroom.push ?_ ?_
  · rw [hroom.ids, List.mem_toFinset, List.mem_map]
    rintro ⟨t, ht, heq⟩
    rw [h.ids, List.mem_toFinset] at hid
    exact hid (List.mem_map.2 ⟨t, hsub.subset (hroomy.sublist.subset ht), heq⟩)
  · rw [bytesOf_concat] at hword
    rw [hroom.totalBytes]
    exact hword

/-- Both limits hold after a successful call. -/
theorem Added.withinLimits {freed room : Mempool} (h : Added pool tx freed room pool') :
    pool'.WithinLimits where
  count := by
    have hroom := h.roomy.roomFor.1
    rw [h.transactions, List.length_append, List.length_singleton, h.limits.1, ← h.limits.2.2.1,
      ← h.roomy.limits.1]
    exact hroom
  bytes := by
    have hroom := h.roomy.roomFor.2
    rw [h.totalBytes, h.indexedRoom.totalBytes, h.limits.2.1, ← h.limits.2.2.2, ← h.roomy.limits.2]
    exact hroom

/-- Below the largest word the bytes never reach it. -/
theorem Added.bytesOf_le {freed room : Mempool} (h : Added pool tx freed room pool')
    (hword : pool.maxBytes < u64Max) : bytesOf pool'.transactions ≤ u64Max := by
  have hroom := h.withinLimits.bytes
  rw [h.totalBytes, h.indexedRoom.totalBytes, h.limits.2.1, saturatingAdd] at hroom
  rw [h.transactions, bytesOf_concat]
  omega

/-- Where there is room nothing leaves. -/
theorem IndexedBut.makeRoom_eq (h : IndexedBut hole pool) {size : ℕ}
    (hroom : pool.RoomFor pool.transactions size) (turns : ℕ) :
    Mempool.makeRoom size turns pool = pool := by
  cases turns with
  | zero => rfl
  | succ turns =>
      rw [Mempool.makeRoom, if_neg]
      rw [h.full_iff, not_not]
      exact hroom

theorem Indexed.replaced_none (h : pool.Indexed) (hkey : tx.key ∉ pool.transactions.map (·.key)) :
    pool.replaced tx = .ok pool := by
  have hnone : pool.senderNonce.lookup (tx.sender, tx.nonce) = none := by
    refine Option.eq_none_iff_forall_ne_some.2 fun id hsome => ?_
    obtain ⟨t, ht, heq, -⟩ := (h.senderNonce tx.key id nofun).1 hsome
    exact hkey (List.mem_map.2 ⟨t, ht, heq⟩)
  rw [Mempool.replaced, hnone]

/-- A transaction that is new in every respect and for which there is room is appended. -/
theorem Indexed.add_new (h : pool.Indexed) (tx : Transaction)
    (hid : tx.id ∉ pool.transactions.map (·.id)) (hkey : tx.key ∉ pool.transactions.map (·.key))
    (hroom : pool.RoomFor pool.transactions tx.size) (hword : pool.maxBytes ≤ u64Max)
    (hbytes : bytesOf (pool.transactions ++ [tx]) ≤ pool.maxBytes) :
    ∃ pool', pool.add tx = .ok pool' ∧ pool'.transactions = pool.transactions ++ [tx] ∧
      pool'.Indexed ∧
      pool'.maxTransactions = pool.maxTransactions ∧ pool'.maxBytes = pool.maxBytes := by
  have hreplaced := h.replaced_none hkey
  have hsize : tx.size ≤ pool.maxBytes := by
    rw [bytesOf_concat] at hbytes
    omega
  have hfresh : tx.id ∉ pool.ids := by rwa [h.ids, List.mem_toFinset]
  have hfreed := (h.replaced hreplaced).1
  refine ⟨_, add_eq_ok.2 ⟨hfresh, hsize, pool, hreplaced, rfl⟩, ?_⟩
  rw [h.makeRoom_eq hroom]
  refine ⟨rfl, hfreed.push hfresh ?_, rfl, rfl⟩
  rw [bytesOf_concat] at hbytes
  rw [h.totalBytes]
  exact hbytes.trans hword

/-! ## Every sequence of calls -/

/-- The call as it changes the pool in place, with its refusals where the source has them. -/
def addInPlace (tx : Transaction) : ExceptT String (StateM Mempool) Unit := do
  let pool ← get
  if tx.id ∈ pool.ids then throw "이미 mempool에 있는 거래입니다."
  if pool.maxBytes < tx.size then throw "거래 하나가 mempool 최대 바이트보다 큽니다."
  match pool.senderNonce.lookup tx.key with
  | none => pure ()
  | some previousId =>
      match pool.transactions.find? (·.id = previousId) with
      | none => throw "mempool nonce 인덱스가 손상되었습니다."
      | some previous =>
          if tx.fee < saturatingAdd u128Max previous.fee (max (previous.fee / 10) 1) then
            throw "같은 nonce 거래 교체에는 기존보다 최소 10% 높은 수수료가 필요합니다."
          modify fun pool => { pool with totalBytes := pool.totalBytes - previous.size }
          modify fun pool => { pool with ids := pool.ids.erase previousId }
          modify fun pool =>
            { pool with transactions := pool.transactions.eraseP (·.id = previousId) }
  modify fun pool => makeRoom tx.size pool.transactions.length pool
  modify fun pool => { pool with ids := insert tx.id pool.ids }
  modify fun pool => { pool with senderNonce := pool.senderNonce.insert tx.key tx.id }
  modify fun pool => { pool with totalBytes := saturatingAdd u64Max pool.totalBytes tx.size }
  modify fun pool => { pool with transactions := pool.transactions ++ [tx] }

/-- A refused call has changed nothing. -/
theorem addInPlace_run (pool : Mempool) (tx : Transaction) :
    (addInPlace tx).run.run pool =
      match pool.add tx with
      | .ok pool' => (.ok (), pool')
      | .error e => (.error e, pool) := by
  have hget : ∀ f : Mempool → ExceptT String (StateM Mempool) Unit,
      (get >>= f).run.run pool = (f pool).run.run pool := fun _ => rfl
  rw [addInPlace, hget, add, reject, reject]
  by_cases hid : tx.id ∈ pool.ids
  · rw [if_pos hid, if_pos hid]
    rfl
  · by_cases hsize : pool.maxBytes < tx.size
    · rw [if_neg hid, if_neg hid, if_pos hsize, if_pos hsize]
      rfl
    · rw [if_neg hid, if_neg hid, if_neg hsize, if_neg hsize, replaced, ← Transaction.key]
      cases pool.senderNonce.lookup tx.key with
      | none => rfl
      | some previousId =>
          simp only [okOr]
          cases pool.transactions.find? (·.id = previousId) with
          | none => rfl
          | some previous =>
              have hok : ∀ {α β : Type} (a : α) (f : α → Except String β), (.ok a >>= f) = f a :=
                fun _ _ => rfl
              simp only [hok, reject]
              split_ifs with hfee
              · rfl
              · rfl

inductive Use
  | add (tx : Transaction)
  | drain (maxCount : ℕ)
  | retainValid (valid : Transaction → Bool)

def use (pool : Mempool) : Use → Mempool
  | .add tx => ((addInPlace tx).run.run pool).2
  | .drain maxCount => (pool.drain maxCount).1
  | .retainValid valid => pool.retainValid valid

/-- An empty pool and the calls on it. -/
def after (maxTransactions maxBytes : ℕ) (uses : List Use) : Mempool :=
  uses.foldl use (withLimits maxTransactions maxBytes)

theorem after_concat (maxTransactions maxBytes : ℕ) (uses : List Use) (u : Use) :
    after maxTransactions maxBytes (uses ++ [u]) = (after maxTransactions maxBytes uses).use u := by
  rw [after, List.foldl_append, ← after, List.foldl_cons, List.foldl_nil]

/-- What every call keeps. -/
structure Sound (pool : Mempool) : Prop where
  indexed : pool.Indexed
  withinLimits : pool.WithinLimits

theorem sound_withLimits (maxTransactions maxBytes : ℕ) :
    (withLimits maxTransactions maxBytes).Sound :=
  ⟨indexed_withLimits _ _, ⟨Nat.zero_le _, Nat.zero_le _⟩⟩

theorem Sound.bytesOf_le (h : pool.Sound) : bytesOf pool.transactions ≤ pool.maxBytes := by
  rw [← h.indexed.totalBytes]
  exact h.withinLimits.bytes

/-- Sound is also what holds a part of the transactions under the same limits. -/
theorem Sound.of_sublist (h : pool.Sound) (hindexed : pool'.Indexed)
    (hlimits : pool'.maxTransactions = pool.maxTransactions ∧ pool'.maxBytes = pool.maxBytes)
    (hsub : pool'.transactions.Subperm pool.transactions) : pool'.Sound where
  indexed := hindexed
  withinLimits :=
    { count := by
        rw [hlimits.1]
        exact hsub.length_le.trans h.withinLimits.count
      bytes := by
        rw [hindexed.totalBytes, hlimits.2]
        exact (bytesOf_le_of_subperm hsub).trans h.bytesOf_le }

theorem Sound.addInPlace (h : pool.Sound) (hbounded : pool.Bounded) (tx : Transaction)
    (hfits : pool.maxBytes < u64Max ∨
      bytesOf ((Mempool.addInPlace tx).run.run pool).2.transactions ≤ u64Max) :
    ((Mempool.addInPlace tx).run.run pool).2.Sound ∧
      ((Mempool.addInPlace tx).run.run pool).2.maxTransactions = pool.maxTransactions ∧
      ((Mempool.addInPlace tx).run.run pool).2.maxBytes = pool.maxBytes := by
  rw [addInPlace_run] at hfits ⊢
  cases hadd : pool.add tx with
  | error e => exact ⟨h, rfl, rfl⟩
  | ok pool' =>
      obtain ⟨freed, room, -, hadded⟩ := h.indexed.add hbounded hadd
      rw [hadd] at hfits
      exact ⟨⟨hadded.indexed (hfits.elim hadded.bytesOf_le id), hadded.withinLimits⟩,
        hadded.limits.1, hadded.limits.2.1⟩

theorem IndexedBut.drainLoop (h : IndexedBut hole pool) (maxCount : ℕ)
    (selected : List Transaction) : IndexedBut hole (drainLoop maxCount pool selected).1 ∧
      (Mempool.drainLoop maxCount pool selected).1.maxTransactions = pool.maxTransactions ∧
      (Mempool.drainLoop maxCount pool selected).1.maxBytes = pool.maxBytes := by
  induction maxCount generalizing pool selected with
  | zero => exact ⟨h, rfl, rfl⟩
  | succ maxCount ih =>
      rw [Mempool.drainLoop]
      cases pool.transactions with
      | nil => exact ⟨h, rfl, rfl⟩
      | cons tx rest =>
          have hlimits := removeAt_limits pool 0
          obtain ⟨hindexed, hcount, hbytes⟩ := ih (h.removeAt 0) (selected ++ [tx])
          exact ⟨hindexed, hcount.trans hlimits.1, hbytes.trans hlimits.2⟩

theorem Sound.drain (h : pool.Sound) (maxCount : ℕ) : (pool.drain maxCount).1.Sound ∧
    (pool.drain maxCount).1.maxTransactions = pool.maxTransactions ∧
    (pool.drain maxCount).1.maxBytes = pool.maxBytes := by
  have hperm := List.perm_insertionSort takenBefore pool.transactions
  obtain ⟨hindexed, hlimits⟩ := (h.indexed.perm hperm).drainLoop maxCount []
  refine ⟨h.of_sublist hindexed hlimits ?_, hlimits⟩
  rw [(drain_spec pool maxCount).2]
  exact (List.drop_sublist _ _).subperm.trans hperm.subperm

/-- Transactions that are new to the pool and to each other, and for which there is room, are
appended in their order. -/
theorem Sound.foldl_offer (h : pool.Sound) (hword : pool.maxBytes ≤ u64Max)
    (txs : List Transaction) (hids : ((pool.transactions ++ txs).map (·.id)).Nodup)
    (hkeys : ((pool.transactions ++ txs).map (·.key)).Nodup)
    (hcount : (pool.transactions ++ txs).length ≤ pool.maxTransactions)
    (hbytes : bytesOf (pool.transactions ++ txs) ≤ pool.maxBytes) :
    (txs.foldl offer pool).transactions = pool.transactions ++ txs ∧
      (txs.foldl offer pool).Sound ∧
      (txs.foldl offer pool).maxTransactions = pool.maxTransactions ∧
      (txs.foldl offer pool).maxBytes = pool.maxBytes := by
  induction txs generalizing pool with
  | nil => exact ⟨(List.append_nil _).symm, h, rfl, rfl⟩
  | cons tx rest ih =>
      rw [List.append_cons] at hids hkeys hcount hbytes
      have hbytes' : bytesOf (pool.transactions ++ [tx]) ≤ pool.maxBytes :=
        (bytesOf_le_of_subperm (List.sublist_append_left _ _).subperm).trans hbytes
      have hcount' : (pool.transactions ++ [tx]).length ≤ pool.maxTransactions :=
        (List.sublist_append_left _ _).length_le.trans hcount
      rw [List.map_append, List.map_append, List.append_assoc] at hids hkeys
      have hroom : pool.RoomFor pool.transactions tx.size := by
        rw [List.length_append, List.length_singleton] at hcount'
        rw [bytesOf_concat] at hbytes'
        unfold RoomFor saturatingAdd
        omega
      obtain ⟨pool', hadd, htransactions, hindexed, hlimits⟩ := h.indexed.add_new tx
        (fun hmem => (List.nodup_append.1 hids).2.2 _ hmem _ (by simp) rfl)
        (fun hmem => (List.nodup_append.1 hkeys).2.2 _ hmem _ (by simp) rfl) hroom hword hbytes'
      have hsound : pool'.Sound := by
        refine ⟨hindexed, ?_, ?_⟩
        · rw [htransactions, hlimits.1]
          exact hcount'
        · rw [hindexed.totalBytes, htransactions, hlimits.2]
          exact hbytes'
      have hoffer : pool.offer tx = pool' := by rw [offer, hadd]
      rw [List.foldl_cons, hoffer, List.append_cons, ← htransactions, ← hlimits.1, ← hlimits.2]
      rw [← List.append_assoc, ← List.map_append, ← List.map_append, ← htransactions] at hids hkeys
      rw [← htransactions, ← hlimits.1] at hcount
      rw [← htransactions, ← hlimits.2] at hbytes
      exact ih hsound (hlimits.2 ▸ hword) hids hkeys hcount hbytes

theorem Sound.retainValid (h : pool.Sound) (hbounded : pool.Bounded) (hpos : 0 < pool.maxBytes)
    (valid : Transaction → Bool) :
    (pool.retainValid valid).transactions = pool.transactions.filter valid ∧
      (pool.retainValid valid).Sound ∧
      (pool.retainValid valid).maxTransactions = pool.maxTransactions ∧
      (pool.retainValid valid).maxBytes = pool.maxBytes := by
  have hsub : (pool.transactions.filter valid).Sublist pool.transactions := List.filter_sublist
  have hcount : (withLimits pool.maxTransactions pool.maxBytes).maxTransactions =
      pool.maxTransactions := max_eq_left hbounded.maxTransactions
  have hbytes : (withLimits pool.maxTransactions pool.maxBytes).maxBytes = pool.maxBytes :=
    max_eq_left hpos
  have hkept := (sound_withLimits pool.maxTransactions pool.maxBytes).foldl_offer
    (hbytes.le.trans hbounded.word) (pool.transactions.filter valid)
    ((hsub.map _).nodup h.indexed.distinctIds) ((hsub.map _).nodup h.indexed.distinctKeys)
    (by rw [hcount]; exact hsub.length_le.trans h.withinLimits.count)
    (by rw [hbytes]; exact (bytesOf_le_of_subperm hsub.subperm).trans h.bytesOf_le)
  rw [hcount, hbytes] at hkept
  exact hkept

theorem Sound.use (h : pool.Sound) (hbounded : pool.Bounded) (hpos : 0 < pool.maxBytes) (u : Use)
    (hfits : pool.maxBytes < u64Max ∨ bytesOf (pool.use u).transactions ≤ u64Max) :
    (pool.use u).Sound ∧ (pool.use u).maxTransactions = pool.maxTransactions ∧
      (pool.use u).maxBytes = pool.maxBytes := by
  cases u with
  | add tx => exact h.addInPlace hbounded tx hfits
  | drain maxCount => exact h.drain maxCount
  | retainValid valid => exact (h.retainValid hbounded hpos valid).2

theorem sound_after (maxTransactions : ℕ) {maxBytes : ℕ} (uses : List Use)
    (hword : maxBytes ≤ u64Max) (hfits : maxBytes < u64Max ∨ ∀ before, before <+: uses →
      bytesOf (after maxTransactions maxBytes before).transactions ≤ u64Max) :
    (after maxTransactions maxBytes uses).Sound ∧
      (after maxTransactions maxBytes uses).maxTransactions = max maxTransactions 1 ∧
      (after maxTransactions maxBytes uses).maxBytes = max maxBytes 1 := by
  induction uses using List.reverseRecOn with
  | nil => exact ⟨sound_withLimits _ _, rfl, rfl⟩
  | append_singleton uses u ih =>
      obtain ⟨hsound, hcount, hbytes⟩ := ih
        (hfits.imp_right fun h before hbefore => h before (hbefore.trans (List.prefix_append _ _)))
      have hone : max maxBytes 1 ≤ u64Max := max_le hword (by decide)
      obtain ⟨hsound', hcount', hbytes'⟩ := hsound.use
        ⟨hcount ▸ lt_max_of_lt_right Nat.one_pos, hbytes.le.trans hone⟩
        (hbytes ▸ lt_max_of_lt_right Nat.one_pos) u <| by
          refine hfits.imp (fun h => ?_) fun h => ?_
          · rw [hbytes]
            exact max_lt h (by decide)
          · rw [← after_concat]
            exact h _ (List.prefix_refl _)
      rw [after_concat]
      exact ⟨hsound', hcount'.trans hcount, hbytes'.trans hbytes⟩

/-- After any calls the indexes and the byte count describe the transactions, and both limits
hold. A refused transaction leaves the pool as it is, and only what is no longer valid is
dropped. The bytes are counted in a word: with the largest limit they are exact as long as they
fit into it. -/
theorem indexes_describe_transactions {maxTransactions maxBytes : ℕ} {uses : List Use}
    (hword : maxBytes ≤ u64Max)
    (hfits : maxBytes < u64Max ∨ ∀ before, before <+: uses →
      bytesOf (after maxTransactions maxBytes before).transactions ≤ u64Max) :
    let pool := after maxTransactions maxBytes uses
    pool.Indexed ∧ pool.transactions.length ≤ max maxTransactions 1 ∧
      pool.totalBytes ≤ max maxBytes 1 ∧
      (∀ tx e pool', (addInPlace tx).run.run pool = (.error e, pool') → pool' = pool) ∧
      ∀ valid, (pool.retainValid valid).transactions = pool.transactions.filter valid := by
  intro pool
  obtain ⟨hsound, hcount, hbytes⟩ := sound_after maxTransactions uses hword hfits
  have hone : max maxBytes 1 ≤ u64Max := max_le hword (by decide)
  refine ⟨hsound.indexed, hcount ▸ hsound.withinLimits.count, hbytes ▸ hsound.withinLimits.bytes,
    fun tx e pool' hrefused => ?_, fun valid => ?_⟩
  · rw [addInPlace_run] at hrefused
    split at hrefused
    · cases hrefused
    · exact (congrArg Prod.snd hrefused).symm
  · exact (hsound.retainValid
      ⟨hcount ▸ lt_max_of_lt_right Nat.one_pos, hbytes.le.trans hone⟩
      (hbytes ▸ lt_max_of_lt_right Nat.one_pos) valid).1

/-! ## Who gives way -/

/-- If those who pay more leave room, none of them gives way. -/
theorem IndexedBut.mem_makeRoom (h : IndexedBut hole pool) {size fee turns : ℕ}
    (hroom : pool.RoomFor (pool.transactions.filter fun t => fee < t.fee) size) {t : Transaction}
    (ht : t ∈ pool.transactions) (hfee : fee < t.fee) :
    t ∈ (Mempool.makeRoom size turns pool).transactions := by
  induction turns generalizing pool with
  | zero => exact ht
  | succ turns ih =>
      rw [Mempool.makeRoom]
      split_ifs with hfull
      · cases hcheapest : cheapest pool.transactions with
        | none => exact ht
        | some position =>
            obtain ⟨out, hat, hmin⟩ := cheapest_spec hcheapest
            have hout : out.fee ≤ fee := by
              -- Otherwise everybody pays more, and then there is room.
              by_contra hmore
              have hall : pool.transactions.filter (fun t => fee < t.fee) = pool.transactions :=
                List.filter_eq_self.2 fun u hu =>
                  decide_eq_true ((not_le.1 hmore).trans_le (hmin u hu))
              rw [hall] at hroom
              exact (h.full_iff size).1 hfull hroom
            have hsub := (sublist_removeAt pool position).filter fun t => fee < t.fee
            refine ih (h.removeAt position) ?_ ?_
            · rw [roomFor_congr (removeAt_limits pool position)]
              exact hroom.of_subperm hsub.subperm
            · rw [removeAt_eq hat]
              rcases List.mem_cons.1 ((perm_eraseIdx hat).mem_iff.1 ht) with rfl | ht
              · exact absurd hfee (not_lt.2 hout)
              · exact ht
      · exact ht

/-- Those who pay more than a transaction, without the one it replaces. -/
def payingMore (pool : Mempool) (tx : Transaction) : List Transaction :=
  pool.transactions.filter fun t => tx.fee < t.fee ∧ t.key ≠ tx.key

/-- No transaction with a higher fee gives way to a new one, other than by replacement, exactly
if those with higher fees leave room for it. -/
theorem higher_fees_stay_iff (h : pool.Sound) (hbounded : pool.Bounded)
    (hadd : pool.add tx = .ok pool') :
    (∀ t ∈ pool.transactions, tx.fee < t.fee → t.key ≠ tx.key → t ∈ pool'.transactions) ↔
      pool.RoomFor (pool.payingMore tx) tx.size := by
  obtain ⟨freed, room, rfl, hadded⟩ := h.indexed.add hbounded hadd
  have hlimits := hadded.limits.2.2
  constructor
  · intro hstay
    have hroom := hadded.roomy.roomFor
    rw [roomFor_congr hadded.roomy.limits, roomFor_congr hlimits] at hroom
    refine hroom.of_subperm ?_
    refine List.Nodup.subperm (h.indexed.nodup.filter _) fun t ht => ?_
    obtain ⟨htmem, hpays⟩ := List.mem_filter.1 ht
    obtain ⟨hfee, hkey⟩ := of_decide_eq_true hpays
    have hkept := hstay t htmem hfee hkey
    rw [hadded.transactions, List.mem_append, List.mem_singleton] at hkept
    exact hkept.resolve_right fun heq => hkey (congrArg _ heq)
  · intro hroom t ht hfee hkey
    rw [hadded.transactions]
    refine List.mem_append_left _ (hadded.indexedFreed.mem_makeRoom ?_ (hadded.kept t ht hkey) hfee)
    rw [roomFor_congr hlimits]
    refine hroom.of_subperm (List.Nodup.subperm (hadded.indexedFreed.nodup.filter _) fun u hu => ?_)
    obtain ⟨hu, hpays⟩ := List.mem_filter.1 hu
    exact List.mem_filter.2 ⟨hadded.sublist.subset hu, decide_eq_true
      ⟨of_decide_eq_true hpays, fun heq => hadded.indexedFreed.free u hu (congrArg some heq)⟩⟩

/-- A new transaction is refused only for its size. -/
theorem Indexed.exists_add (h : pool.Indexed) (hid : tx.id ∉ pool.transactions.map (·.id))
    (hkey : tx.key ∉ pool.transactions.map (·.key)) (hsize : tx.size ≤ pool.maxBytes) :
    ∃ pool', pool.add tx = .ok pool' := by
  have hfresh : tx.id ∉ pool.ids := by rwa [h.ids, List.mem_toFinset]
  refine ⟨_, add_eq_ok.2 ⟨hfresh, hsize, pool, h.replaced_none hkey, rfl⟩⟩

/-- What fits is added at the end. -/
theorem Indexed.add_fitting (h : pool.Indexed) (tx : Transaction)
    (hid : tx.id ∉ pool.transactions.map (·.id))
    (hkey : tx.key ∉ pool.transactions.map (·.key))
    (hcount : pool.transactions.length < pool.maxTransactions) (hword : pool.maxBytes ≤ u64Max)
    (hbytes : bytesOf pool.transactions + tx.size ≤ pool.maxBytes) :
    ∃ pool', pool.add tx = .ok pool' ∧ pool'.transactions = pool.transactions ++ [tx] ∧
      pool'.Indexed ∧ pool'.maxTransactions = pool.maxTransactions ∧
      pool'.maxBytes = pool.maxBytes :=
  h.add_new tx hid hkey (roomFor_of_fits hcount hbytes) hword (bytesOf_concat .. ▸ hbytes)

theorem use_add (h : pool.add tx = .ok pool') : pool.use (.add tx) = pool' := by
  rw [use, addInPlace_run, h]

/-- A transaction in an empty pool. -/
theorem add_one (tx : Transaction) {maxTransactions maxBytes : ℕ} (hplaces : 0 < maxTransactions)
    (hword : maxBytes ≤ u64Max) (hbytes : tx.size ≤ maxBytes) :
    ∃ one, (withLimits maxTransactions maxBytes).add tx = .ok one ∧ one.transactions = [tx] ∧
      one.Indexed ∧ maxTransactions ≤ one.maxTransactions ∧
      maxBytes ≤ one.maxBytes ∧ one.maxBytes ≤ u64Max := by
  have hword' : (withLimits maxTransactions maxBytes).maxBytes ≤ u64Max :=
    max_le hword (by decide)
  have hnone : bytesOf (withLimits maxTransactions maxBytes).transactions = 0 := rfl
  have hfits : tx.size ≤ (withLimits maxTransactions maxBytes).maxBytes :=
    hbytes.trans (le_max_left ..)
  obtain ⟨one, hone, hfirst, hindexed, hcount, hmax⟩ :=
    (indexed_withLimits maxTransactions maxBytes).add_fitting tx List.not_mem_nil
      List.not_mem_nil (lt_max_of_lt_left hplaces) hword' (by omega)
  rw [withLimits, List.nil_append] at hfirst
  exact ⟨one, hone, hfirst, hindexed, hcount ▸ le_max_left .., hmax ▸ le_max_left ..,
    hmax ▸ hword'⟩

/-- Two transactions in an empty pool. -/
theorem add_two {maxTransactions maxBytes : ℕ} {a b : Transaction} (hid : b.id ≠ a.id)
    (hkey : b.key ≠ a.key) (hplaces : 1 < maxTransactions) (hword : maxBytes ≤ u64Max)
    (hbytes : a.size + b.size ≤ maxBytes) :
    ∃ one two, (withLimits maxTransactions maxBytes).add a = .ok one ∧ one.add b = .ok two ∧
      two.transactions = [a, b] := by
  obtain ⟨one, hone, hfirst, hindexed, hcount, hmax, hword'⟩ :=
    add_one a (by omega : 0 < maxTransactions) hword (by omega)
  obtain ⟨two, htwo, hsecond, -⟩ := hindexed.add_fitting b (by simpa [hfirst] using hid)
    (by simpa [hfirst] using hkey) (by rw [hfirst, List.length_singleton]; omega) hword'
    (by rw [hfirst, bytesOf_singleton]; omega)
  rw [hfirst] at hsecond
  exact ⟨one, two, hone, htwo, hsecond⟩

end

end Mempool

/-! A pool with one place, and a cheaper transaction of somebody else. -/

namespace Sample

local instance indexCrypto : Crypto := StandIn.crypto id

def cheap : Transaction :=
  StandIn.signed 2
    { sender := StandIn.address 2, receiver := StandIn.address 1, amount := 5, fee := 1, nonce := 0
      action := .transfer, signature := "" }

def small : Mempool := Mempool.after 1 8000 [.add transfer]

theorem sender_ne : cheap.sender ≠ transfer.sender := StandIn.address_ne (by decide)

/-- Transactions of different senders have different ids. -/
theorem id_ne {n m : ℕ} {a b : Transaction} (ha : a.sender = StandIn.address n)
    (hb : b.sender = StandIn.address m) (h : UInt8.ofNat n ≠ UInt8.ofNat m) : a.id ≠ b.id := by
  intro hid
  have hbytes := hexEncode_injective hid
  have hshort : ∀ k, (StandIn.address k).utf8ByteSize < 2 ^ 64 := fun k => by
    rw [StandIn.address, utf8ByteSize_hexEncode, StandIn.key, List.length_replicate]
    decide
  simp only [Transaction.signingBytes, List.append_assoc, ha, hb] at hbytes
  exact StandIn.address_ne h (pushText_append_inj (hshort n) (hshort m) hbytes).1

/-- Signed transfers between numbered accounts are short. -/
theorem size_signed_le (n fee nonce : ℕ) (hfee : (decimal fee).toList.length ≤ 10)
    (hnonce : (decimal nonce).toList.length ≤ 10) : (StandIn.signed n
    { sender := StandIn.address n, receiver := StandIn.address 1, amount := 5, fee, nonce
      action := .transfer, signature := "" }).size ≤ 8000 := by
  have haddress : ∀ m, (StandIn.address m).toList.length = 64 := fun m => by
    rw [StandIn.address, String.length_toList, length_hexEncode, StandIn.key, List.length_replicate]
  have hsign : ∀ message, (StandIn.sign n message).toList.length = 128 := fun message => by
    rw [StandIn.sign, String.length_toList, length_hexEncode, List.length_append,
      StandIn.length_digest, StandIn.key, List.length_replicate]
  have hsender := length_jsonString_le (StandIn.address n)
  have hreceiver := length_jsonString_le (StandIn.address 1)
  have hfee' := length_jsonString_le (decimal fee)
  have hsignature := fun message => length_jsonString_le (StandIn.sign n message)
  simp only [haddress, hsign] at hsender hreceiver hsignature
  have hnames : (jsonString "from").length + (jsonString "to").length +
      (jsonString "amount").length + (jsonString "fee").length + (jsonString "nonce").length +
      (jsonString "signature").length + (jsonString (decimal 5)).length ≤ 60 := by decide
  refine (Transaction.size_le _).trans ?_
  simp only [StandIn.signed, Transaction.json, TransactionAction.isTransfer, if_true, jsonObject,
    jsonDecimal, jsonNumber, List.append_nil, List.map_cons, List.map_nil, List.cons_append,
    List.nil_append, joinChars, List.length_cons, List.length_nil, List.length_append]
  have hsigned := hsignature (Transaction.signingBytes
    { sender := StandIn.address n, receiver := StandIn.address 1, amount := 5, fee, nonce
      action := .transfer, signature := "" })
  omega

theorem size_le : transfer.size ≤ 8000 ∧ cheap.size ≤ 8000 :=
  ⟨size_signed_le 1 7 0 (by decide) (by decide), size_signed_le 2 1 0 (by decide) (by decide)⟩

/-- One place and one transfer. -/
theorem small_spec : small.Sound ∧ small.maxTransactions = 1 ∧ small.maxBytes = 8000 ∧
    small.transactions = [transfer] := by
  obtain ⟨hsound, hcount, hmax⟩ := Mempool.sound_after 1 [.add transfer]
    (by decide : 8000 ≤ u64Max) (.inl (by decide))
  obtain ⟨pool, hadd, htransactions, -⟩ :=
    Mempool.add_one transfer Nat.one_pos (by decide : 8000 ≤ u64Max) size_le.1
  have hsmall : small = pool := by
    rw [small, Mempool.after, List.foldl_cons, List.foldl_nil, Mempool.use_add hadd]
  refine ⟨hsound, ?_, ?_, ?_⟩
  · rw [small, hcount, max_self]
  · rw [small, hmax, max_eq_left (by decide)]
  · rw [hsmall, htransactions]

theorem bounded_small : small.Bounded := by
  obtain ⟨-, hcount, hbytes, -⟩ := small_spec
  exact ⟨by rw [hcount]; exact Nat.one_pos, by rw [hbytes]; decide⟩

theorem exists_add_cheap : ∃ pool', small.add cheap = .ok pool' := by
  obtain ⟨hsound, -, hbytes, htransactions⟩ := small_spec
  refine hsound.indexed.exists_add ?_ ?_ (hbytes ▸ size_le.2)
  · rw [htransactions, List.map_singleton, List.mem_singleton]
    exact id_ne (n := 2) (m := 1) rfl rfl (by decide)
  · rw [htransactions, List.map_singleton, List.mem_singleton]
    exact fun h => sender_ne (congrArg Prod.fst h)

theorem add_cheap : ∃ pool', small.add cheap = .ok pool' ∧ transfer ∉ pool'.transactions := by
  obtain ⟨hsound, hone, -, -⟩ := small_spec
  obtain ⟨pool', hadd⟩ := exists_add_cheap
  refine ⟨pool', hadd, ?_⟩
  obtain ⟨freed, room, -, hadded⟩ := hsound.indexed.add bounded_small hadd
  have hcount := hadded.withinLimits.count
  rw [hadded.limits.1, hone, hadded.transactions, List.length_append,
    List.length_singleton] at hcount
  have hnil : room.transactions = [] := List.length_eq_zero_iff.1 (by omega)
  rw [hadded.transactions, hnil, List.nil_append, List.mem_singleton]
  exact fun h => sender_ne (congrArg (·.sender) h).symm

theorem transfer_pays_more : transfer ∈ small.transactions ∧ cheap.fee < transfer.fee ∧
    transfer.key ≠ cheap.key := by
  refine ⟨?_, by decide, fun h => sender_ne (congrArg Prod.fst h).symm⟩
  rw [small_spec.2.2.2]
  exact List.mem_singleton_self _

/-- The cheaper transaction takes the only place. -/
theorem cheap_takes_place : ∃ pool', small.add cheap = .ok pool' ∧ transfer ∈ small.transactions ∧
    cheap.fee < transfer.fee ∧ transfer.key ≠ cheap.key ∧ transfer ∉ pool'.transactions := by
  obtain ⟨pool', hadd, hgone⟩ := add_cheap
  obtain ⟨hmem, hfee, hkey⟩ := transfer_pays_more
  exact ⟨pool', hadd, hmem, hfee, hkey, hgone⟩

/-! With two places the cheaper of two transactions gives way to a third one. -/

def middle : Transaction :=
  StandIn.signed 3
    { sender := StandIn.address 3, receiver := StandIn.address 1, amount := 5, fee := 3, nonce := 0
      action := .transfer, signature := "" }

def roomy : Mempool := Mempool.after 2 16000 [.add transfer, .add cheap]

theorem two_fit {a b : ℕ} (ha : a ≤ 8000) (hb : b ≤ 8000) : a + b ≤ 16000 := by omega

theorem key_middle_ne : middle.key ≠ transfer.key ∧ middle.key ≠ cheap.key :=
  ⟨fun h => StandIn.address_ne (by decide : UInt8.ofNat 3 ≠ UInt8.ofNat 1) (congrArg Prod.fst h),
    fun h => StandIn.address_ne (by decide : UInt8.ofNat 3 ≠ UInt8.ofNat 2) (congrArg Prod.fst h)⟩

/-- Two places, both taken. -/
theorem roomy_spec : roomy.Sound ∧ roomy.maxTransactions = 2 ∧ roomy.maxBytes = 16000 ∧
    roomy.transactions = [transfer, cheap] := by
  obtain ⟨hsound, hcount, hmax⟩ := Mempool.sound_after 2 [.add transfer, .add cheap]
    (by decide : 16000 ≤ u64Max) (.inl (by decide))
  have hkey : cheap.key ≠ transfer.key := fun h => sender_ne (congrArg Prod.fst h)
  obtain ⟨one, two, hone, htwo, htransactions⟩ :=
    Mempool.add_two (id_ne (n := 2) (m := 1) rfl rfl (by decide)) hkey Nat.one_lt_two
      (by decide : 16000 ≤ u64Max) (two_fit size_le.1 size_le.2)
  have hroomy : roomy = two := by
    rw [roomy, Mempool.after, List.foldl_cons, List.foldl_cons, List.foldl_nil,
      Mempool.use_add hone, Mempool.use_add htwo]
  refine ⟨hsound, ?_, ?_, hroomy ▸ htransactions⟩
  · rw [roomy, hcount, max_eq_left (by decide)]
  · rw [roomy, hmax, max_eq_left (by decide)]

theorem exists_add_middle : ∃ pool', roomy.add middle = .ok pool' := by
  obtain ⟨hsound, -, hbytes, htransactions⟩ := roomy_spec
  have hsize : middle.size ≤ 8000 := size_signed_le 3 3 0 (by decide) (by decide)
  refine hsound.indexed.exists_add ?_ ?_ ?_
  · rw [htransactions]
    simp only [List.map_cons, List.map_nil, List.mem_cons, List.not_mem_nil, or_false, not_or]
    exact ⟨id_ne (n := 3) (m := 1) rfl rfl (by decide), id_ne (n := 3) (m := 2) rfl rfl (by decide)⟩
  · rw [htransactions]
    simpa only [List.map_cons, List.map_nil, List.mem_cons, List.not_mem_nil, or_false, not_or]
      using key_middle_ne
  · rw [hbytes]
    exact hsize.trans (by decide)

theorem roomFor_middle : roomy.RoomFor (roomy.payingMore middle) middle.size := by
  obtain ⟨-, hcount, hbytes, htransactions⟩ := roomy_spec
  have hsize : middle.size ≤ 8000 := size_signed_le 3 3 0 (by decide) (by decide)
  have hpaying : roomy.payingMore middle = [transfer] := by
    rw [Mempool.payingMore, htransactions]
    have hkey : transfer.key ≠ middle.key := Ne.symm key_middle_ne.1
    have hmore : middle.fee < transfer.fee := by decide
    have hless : ¬middle.fee < cheap.fee := by decide
    simp [hkey, hmore, hless]
  rw [hpaying]
  refine Mempool.roomFor_of_fits ?_ ?_
  · rw [hcount]
    decide
  · rw [Mempool.bytesOf_singleton, hbytes]
    exact two_fit size_le.1 hsize

/-- There is no room in the pool with one place, and there is in the one with two. -/
theorem higher_fees_stay_two :
    (∃ pool', small.add cheap = .ok pool' ∧
      ¬small.RoomFor (small.payingMore cheap) cheap.size) ∧
    ∃ pool', roomy.add middle = .ok pool' ∧
      roomy.RoomFor (roomy.payingMore middle) middle.size ∧
      pool'.transactions = [transfer, middle] := by
  constructor
  · obtain ⟨pool', hadd, hgone⟩ := add_cheap
    obtain ⟨hmem, hfee, hkey⟩ := transfer_pays_more
    refine ⟨pool', hadd, fun hroom => hgone ?_⟩
    exact (Mempool.higher_fees_stay_iff small_spec.1 bounded_small hadd).2 hroom _ hmem hfee hkey
  · obtain ⟨hsound, hcount, hbytes, htransactions⟩ := roomy_spec
    have hbounded : roomy.Bounded := ⟨by rw [hcount]; decide, by rw [hbytes]; decide⟩
    obtain ⟨pool', hadd⟩ := exists_add_middle
    refine ⟨pool', hadd, roomFor_middle, ?_⟩
    have hstays : transfer ∈ pool'.transactions :=
      (Mempool.higher_fees_stay_iff hsound hbounded hadd).2 roomFor_middle transfer
        (htransactions ▸ List.mem_cons_self) (by decide) (Ne.symm key_middle_ne.1)
    obtain ⟨freed, room, -, hadded⟩ := hsound.indexed.add hbounded hadd
    rw [hadded.transactions] at hstays ⊢
    have hroom : transfer ∈ room.transactions := by
      refine (List.mem_append.1 hstays).resolve_right fun h => key_middle_ne.1 ?_
      rw [List.mem_singleton.1 h]
    have hlength := hadded.withinLimits.count
    rw [hadded.limits.1, hcount, hadded.transactions, List.length_append,
      List.length_singleton] at hlength
    have hone : room.transactions.length = 1 :=
      le_antisymm (by omega) (List.length_pos_of_mem hroom)
    obtain ⟨t, ht⟩ := List.length_eq_one_iff.1 hone
    rw [ht] at hroom ⊢
    rw [List.mem_singleton.1 hroom]
    rfl

theorem indexes_describe_transactions_transfer :
    let pool := Mempool.after 1 8000 [.add transfer, .add cheap, .drain 1]
    pool.Indexed ∧ pool.transactions.length ≤ 1 ∧ pool.totalBytes ≤ 8000 ∧
      (∀ tx e pool', (Mempool.addInPlace tx).run.run pool = (.error e, pool') → pool' = pool) ∧
      ∀ valid, (pool.retainValid valid).transactions = pool.transactions.filter valid :=
  Mempool.indexes_describe_transactions (by decide) (.inl (by decide))

end Sample

end IeumChain
