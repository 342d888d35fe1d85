import Mathlib.Algebra.GroupWithZero.Nat
import Mathlib.Data.List.AList
import Mathlib.Algebra.BigOperators.Group.List.Basic
import Mathlib.Algebra.Order.BigOperators.Group.Finset

/-!
# Hash maps as association lists

A hash map is an association list with distinct keys. The order of the entries
stands for the iteration order, which a program must not rely on: everything
below is stated through lookups and through sums over all entries.
-/
namespace FiniteMap

/-- A finite map whose entry order plays the role of the iteration order. -/
abbrev HashMap (α β : Type) := AList (fun _ : α => β)

section
variable {α β : Type} [DecidableEq α]

/-- Later pairs replace earlier ones, as when a map is collected from pairs. -/
def collect (pairs : List (α × β)) : HashMap α β :=
  pairs.foldl (fun m p => m.insert p.1 p.2) ∅

def values (m : HashMap α β) : List β := m.entries.map fun e => e.2

def getD (m : HashMap α β) (k : α) (d : β) : β := (m.lookup k).getD d

/-- Keeps the entries whose key satisfies the predicate. -/
def retain (p : α → Bool) (m : HashMap α β) : HashMap α β :=
  ⟨m.entries.filter fun e => p e.1, m.nodupKeys.sublist List.filter_sublist⟩

/-- Writes the value unless the key is there. -/
def orInsert (m : HashMap α β) (k : α) (v : β) : HashMap α β := if k ∈ m then m else m.insert k v

@[simp] theorem getD_insert_self (m : HashMap α β) (k : α) (v d : β) :
    getD (m.insert k v) k d = v := by
  simp [getD]

theorem mem_values {m : HashMap α β} {v : β} : v ∈ values m ↔ ∃ k, m.lookup k = some v := by
  simp only [values, List.mem_map]
  constructor
  · rintro ⟨e, he, rfl⟩
    exact ⟨e.1, AList.mem_lookup_iff.2 he⟩
  · rintro ⟨k, hk⟩
    exact ⟨⟨k, v⟩, AList.mem_lookup_iff.1 hk, rfl⟩

theorem getD_insert_ne (m : HashMap α β) {j k : α} (h : j ≠ k) (v d : β) :
    getD (m.insert k v) j d = getD m j d := by
  simp [getD, AList.lookup_insert_ne h]

/-- A lookup does not depend on the order of the entries. -/
theorem getD_perm {m m' : HashMap α β} (h : m.entries.Perm m'.entries) (k : α) (d : β) :
    getD m k d = getD m' k d := by
  rw [getD, getD, AList.perm_lookup h]

theorem lookup_orInsert (m : HashMap α β) (j k : α) (v : β) :
    (orInsert m k v).lookup j = (m.lookup j).or (if j = k then some v else none) := by
  rw [orInsert]
  split_ifs with hk hjk hjk
  · subst hjk
    obtain ⟨w, hw⟩ := Option.isSome_iff_exists.1 (AList.lookup_isSome.2 hk)
    rw [hw, Option.some_or]
  · rw [Option.or_none]
  · subst hjk
    rw [AList.lookup_insert, AList.lookup_eq_none.2 hk, Option.none_or]
  · rw [AList.lookup_insert_ne hjk, Option.or_none]

@[simp] theorem getD_erase_self (m : HashMap α β) (k : α) (d : β) : getD (m.erase k) k d = d := by
  rw [getD, AList.lookup_erase, Option.getD_none]

theorem getD_erase_ne (m : HashMap α β) {j k : α} (h : j ≠ k) (d : β) :
    getD (m.erase k) j d = getD m j d := by
  rw [getD, AList.lookup_erase_ne h, getD]

theorem lookup_retain {p : α → Bool} {k : α} (hk : p k = true) (m : HashMap α β) :
    (retain p m).lookup k = m.lookup k := by
  ext v
  rw [← Option.mem_def, ← Option.mem_def, AList.mem_lookup_iff, AList.mem_lookup_iff]
  exact List.mem_filter.trans (and_iff_left hk)

theorem getD_retain {p : α → Bool} {k : α} (hk : p k = true) (m : HashMap α β) (d : β) :
    getD (retain p m) k d = getD m k d := by
  rw [getD, lookup_retain hk, getD]

theorem getD_retain_of_not {p : α → Bool} {k : α}
    (hk : p k = false) (m : HashMap α β) (d : β) : getD (retain p m) k d = d := by
  have hnone : (retain p m).lookup k = none := by
    refine Option.eq_none_iff_forall_ne_some.2 fun v hv => ?_
    have hentry := (List.mem_filter.1 (AList.mem_lookup_iff.1 hv)).2
    rw [hk] at hentry
    cases hentry
  rw [getD, hnone, Option.getD_none]

omit [DecidableEq α] in
theorem length_keys_retain (p : α → Bool) (m : HashMap α β) :
    (retain p m).keys.length ≤ m.keys.length := by
  simp only [retain, AList.keys, List.keys, List.length_map]
  exact List.length_filter_le _ _

theorem length_keys_erase {m : HashMap α β} {k : α} (hk : k ∈ m) :
    (m.erase k).keys.length = m.keys.length - 1 := by
  rw [AList.keys_erase, List.length_erase_of_mem (AList.mem_keys.1 hk)]

/-- A key that is new makes the map longer by one; a known one does not. -/
theorem length_keys_insert (m : HashMap α β) (k : α) (v : β) :
    (m.insert k v).keys.length = if k ∈ m then m.keys.length else m.keys.length + 1 := by
  rw [AList.keys_insert, List.length_cons]
  split_ifs with hk
  · rw [List.length_erase_of_mem (AList.mem_keys.1 hk)]
    have := List.length_pos_of_mem (AList.mem_keys.1 hk)
    omega
  · rw [List.erase_of_not_mem fun hmem => hk (AList.mem_keys.2 hmem)]

end

section
variable {α : Type} [DecidableEq α]

/-- The sum of all stored amounts. -/
def total (m : HashMap α ℕ) : ℕ := (values m).sum

theorem sum_kerase (k : α) (l : List (Sigma fun _ : α => ℕ)) :
    ((l.kerase k).map fun e => e.2).sum + (l.dlookup k).getD 0 = (l.map fun e => e.2).sum := by
  induction l with
  | nil => simp
  | cons e l ih =>
      obtain ⟨j, v⟩ := e
      by_cases h : k = j
      · subst h
        simp [Nat.add_comm]
      · have hj : k ≠ (⟨j, v⟩ : Sigma fun _ : α => ℕ).1 := h
        rw [List.kerase_cons_ne hj, List.dlookup_cons_ne _ _ hj]
        simp only [List.map_cons, List.sum_cons]
        omega

/-- Writing one key moves the total by the difference of its two amounts. -/
theorem total_insert (m : HashMap α ℕ) (k : α) (v : ℕ) :
    total (m.insert k v) + getD m k 0 = total m + v := by
  have h := sum_kerase k m.entries
  simp only [total, values, getD, AList.lookup, AList.entries_insert,
    List.map_cons, List.sum_cons]
  omega

/-- One stored amount never exceeds the total. -/
theorem getD_le_total (m : HashMap α ℕ) (k : α) : getD m k 0 ≤ total m := by
  have h := sum_kerase k m.entries
  simp only [total, values, getD, AList.lookup]
  omega

theorem sum_getD_keys (m : HashMap α ℕ) : ∑ k ∈ m.keys.toFinset, getD m k 0 = total m := by
  rw [List.sum_toFinset _ m.keys_nodup, total, values, AList.keys, List.keys, List.map_map]
  congr 1
  apply List.map_congr_left
  intro e he
  rw [Function.comp_apply, getD, AList.mem_lookup_iff.2 he, Option.getD_some]

/-- The amounts of distinct keys never exceed the total. -/
theorem sum_getD_le_total (m : HashMap α ℕ) (s : Finset α) : ∑ k ∈ s, getD m k 0 ≤ total m := by
  have hzero : ∀ k ∈ s, k ∉ s ∩ m.keys.toFinset → getD m k 0 = 0 := by
    intro k hk hnot
    have hkey : k ∉ m := fun hmem =>
      hnot (Finset.mem_inter.2 ⟨hk, List.mem_toFinset.2 (AList.mem_keys.1 hmem)⟩)
    rw [getD, AList.lookup_eq_none.2 hkey, Option.getD_none]
  calc ∑ k ∈ s, getD m k 0 = ∑ k ∈ s ∩ m.keys.toFinset, getD m k 0 :=
        (Finset.sum_subset Finset.inter_subset_left hzero).symm
    _ ≤ ∑ k ∈ m.keys.toFinset, getD m k 0 :=
        Finset.sum_le_sum_of_subset Finset.inter_subset_right
    _ = total m := sum_getD_keys m

theorem mem_foldl_insert (pairs : List (α × β)) (m : HashMap α β)
    (k : α) : k ∈ pairs.foldl (fun m p => m.insert p.1 p.2) m ↔ k ∈ m ∨ k ∈ pairs.map (·.1) := by
  induction pairs generalizing m with
  | nil => simp
  | cons p rest ih =>
      rw [List.foldl_cons, ih, AList.mem_insert, List.map_cons, List.mem_cons]
      tauto

theorem mem_collect {pairs : List (α × β)} {k : α} :
    k ∈ collect pairs ↔ k ∈ pairs.map (·.1) := by
  rw [collect, mem_foldl_insert]
  exact or_iff_right (AList.notMem_empty k)

theorem total_foldl_insert_le (pairs : List (α × ℕ))
    (m : HashMap α ℕ) : total (pairs.foldl (fun m p => m.insert p.1 p.2) m) ≤
      total m + (pairs.map (·.2)).sum := by
  induction pairs generalizing m with
  | nil => simp
  | cons p rest ih =>
      have hinsert := total_insert m p.1 p.2
      have hrest := ih (m.insert p.1 p.2)
      rw [List.foldl_cons, List.map_cons, List.sum_cons]
      omega

/-- Pairs that are replaced count no more. -/
theorem total_collect_le (pairs : List (α × ℕ)) :
    total (collect pairs) ≤ (pairs.map (·.2)).sum := by
  have h := total_foldl_insert_le pairs ∅
  rwa [show total (∅ : HashMap α ℕ) = 0 from rfl, zero_add] at h

theorem collect_concat (pairs : List (α × ℕ)) (p : α × ℕ) :
    collect (pairs ++ [p]) = (collect pairs).insert p.1 p.2 := by
  rw [collect, List.foldl_append]
  rfl

/-- Nothing is lost when a pair is replaced by a later one. -/
def Lossless (pairs : List (α × ℕ)) : Prop := pairs.Pairwise fun a b => a.1 = b.1 → a.2 = 0

omit [DecidableEq α] in
theorem lossless_concat {pairs : List (α × ℕ)} {p : α × ℕ} :
    Lossless (pairs ++ [p]) ↔ Lossless pairs ∧ ∀ a ∈ pairs, a.1 = p.1 → a.2 = 0 := by
  simp [Lossless, List.pairwise_append]

theorem getD_collect_of_zero {pairs : List (α × ℕ)} {k : α}
    (h : ∀ p ∈ pairs, p.1 = k → p.2 = 0) : getD (collect pairs) k 0 = 0 := by
  induction pairs using List.reverseRecOn with
  | nil => rfl
  | append_singleton pairs p ih =>
      simp only [List.mem_append, List.mem_singleton] at h
      rw [collect_concat]
      by_cases hk : p.1 = k
      · rw [← hk, getD_insert_self]
        exact h p (.inr rfl) hk
      · rw [getD_insert_ne _ (Ne.symm hk)]
        exact ih fun q hq => h q (.inl hq)

theorem zero_of_getD_collect {pairs : List (α × ℕ)} {k : α} (h : Lossless pairs)
    (hzero : getD (collect pairs) k 0 = 0) : ∀ p ∈ pairs, p.1 = k → p.2 = 0 := by
  induction pairs using List.reverseRecOn with
  | nil => simp
  | append_singleton pairs p ih =>
      obtain ⟨hpairs, hlast⟩ := lossless_concat.1 h
      rw [collect_concat] at hzero
      intro q hq hqk
      rcases List.mem_append.1 hq with hq | hq
      · by_cases hk : p.1 = k
        · exact hlast q hq (hqk.trans hk.symm)
        · rw [getD_insert_ne _ (Ne.symm hk)] at hzero
          exact ih hpairs hzero q hq hqk
      · rw [List.mem_singleton] at hq
        subst hq
        rwa [← hqk, getD_insert_self] at hzero

/-- The map holds all that the pairs add up to exactly if no replaced pair had anything. -/
theorem total_collect_eq_iff {pairs : List (α × ℕ)} :
    total (collect pairs) = (pairs.map (·.2)).sum ↔ Lossless pairs := by
  induction pairs using List.reverseRecOn with
  | nil => exact ⟨fun _ => .nil, fun _ => rfl⟩
  | append_singleton pairs p ih =>
      have hinsert := total_insert (collect pairs) p.1 p.2
      have hle := total_collect_le pairs
      rw [collect_concat, lossless_concat, ← ih, List.map_append, List.sum_append,
        List.map_singleton, List.sum_singleton]
      constructor
      · intro htotal
        have hpairs : total (collect pairs) = (pairs.map (·.2)).sum := by omega
        have hzero : getD (collect pairs) p.1 0 = 0 := by omega
        exact ⟨hpairs, zero_of_getD_collect (ih.1 hpairs) hzero⟩
      · rintro ⟨hpairs, hlast⟩
        have hzero := getD_collect_of_zero hlast
        omega

end

end FiniteMap
