import Mathlib.Data.List.Destutter
import Mathlib.Data.List.Perm.Basic
import Mathlib.Data.List.Sort

/-!
# Lists sorted by a key

Sorting is stable, and of neighbours with one key only the first is kept. What is appended
behind a list of smaller keys stays at the end, and what repeats the last key is dropped.
-/
namespace KeyedLists

variable {α : Type} (key : α → ℕ)

def sortByKey (l : List α) : List α := l.insertionSort (key · ≤ key ·)

def dedupByKey (l : List α) : List α := l.destutter (key · ≠ key ·)

theorem sortByKey_perm (l : List α) : (sortByKey key l).Perm l := List.perm_insertionSort _ l

theorem mem_sortByKey {l : List α} {a : α} : a ∈ sortByKey key l ↔ a ∈ l :=
  (sortByKey_perm key l).mem_iff

theorem pairwise_sortByKey (l : List α) : (sortByKey key l).Pairwise (key · ≤ key ·) := by
  have htotal : Std.Total fun a b => key a ≤ key b := ⟨fun a b => Nat.le_total (key a) (key b)⟩
  have htrans : IsTrans α fun a b => key a ≤ key b := ⟨fun _ _ _ => Nat.le_trans⟩
  exact List.pairwise_insertionSort _ l

variable {key}

/-- With keys that increase there is one order to sort a list in. -/
theorem sortByKey_eq {l m : List α} (hperm : l.Perm m) (hm : m.Pairwise (key · < key ·)) :
    sortByKey key l = m := by
  have hall := (sortByKey_perm key l).trans hperm
  have hkeys : (m.map key).Nodup := List.pairwise_map.2 (hm.imp fun h => h.ne)
  refine List.Perm.eq_of_pairwise ?_ (pairwise_sortByKey key l) (hm.imp fun h => h.le) hall
  intro a b ha hb hab hba
  exact List.inj_on_of_nodup_map hkeys (hall.mem_iff.1 ha) hb (Nat.le_antisymm hab hba)

theorem dedupByKey_eq {l : List α} (h : l.Pairwise (key · < key ·)) : dedupByKey key l = l :=
  List.destutter_of_isChain _ _ (h.imp fun hlt => hlt.ne).isChain

theorem orderedInsert_concat {a b : α} (hab : key a ≤ key b) (l : List α) :
    List.orderedInsert (key · ≤ key ·) a (l ++ [b]) =
      List.orderedInsert (key · ≤ key ·) a l ++ [b] := by
  induction l with
  | nil => simp [hab]
  | cons c l ih =>
      simp only [List.cons_append, List.orderedInsert_cons]
      split_ifs
      · rfl
      · rw [ih, List.cons_append]

/-- What has a key as large as any stays at the end. -/
theorem sortByKey_concat {l : List α} {b : α} (h : ∀ a ∈ l, key a ≤ key b) :
    sortByKey key (l ++ [b]) = sortByKey key l ++ [b] := by
  induction l with
  | nil => rfl
  | cons a l ih =>
      rw [List.forall_mem_cons] at h
      simp only [sortByKey, List.cons_append, List.insertionSort_cons] at ih ⊢
      rw [ih h.2, orderedInsert_concat h.1]

theorem destutter'_concat_new {a b : α} {l : List α} (h : ∀ c ∈ a :: l, key c ≠ key b) :
    (l ++ [b]).destutter' (key · ≠ key ·) a = l.destutter' (key · ≠ key ·) a ++ [b] := by
  induction l generalizing a with
  | nil => simp [h a]
  | cons c l ih =>
      simp only [List.forall_mem_cons] at h ih
      rw [List.cons_append]
      by_cases hac : key a ≠ key c
      · rw [List.destutter'_cons, if_pos hac, List.destutter'_cons, if_pos hac, ih h.2,
          List.cons_append]
      · rw [List.destutter'_cons, if_neg hac, List.destutter'_cons, if_neg hac, ih ⟨h.1, h.2.2⟩]

theorem destutter'_concat_known {a b : α} {l : List α}
    (h : key ((a :: l).getLast (List.cons_ne_nil a l)) = key b) :
    (l ++ [b]).destutter' (key · ≠ key ·) a = l.destutter' (key · ≠ key ·) a := by
  induction l generalizing a with
  | nil => simpa using h
  | cons c l ih =>
      rw [List.getLast_cons (List.cons_ne_nil c l)] at h
      rw [List.cons_append]
      by_cases hac : key a ≠ key c
      · rw [List.destutter'_cons, if_pos hac, List.destutter'_cons, if_pos hac, ih h]
      · rw [List.destutter'_cons, if_neg hac, List.destutter'_cons, if_neg hac]
        refine ih ?_
        cases l with
        | nil => exact (not_not.1 hac).trans h
        | cons d l =>
            rw [List.getLast_cons (List.cons_ne_nil d l)] at h ⊢
            exact h

theorem dedupByKey_concat_new {l : List α} {b : α} (h : ∀ a ∈ l, key a ≠ key b) :
    dedupByKey key (l ++ [b]) = dedupByKey key l ++ [b] := by
  cases l with
  | nil => rfl
  | cons a l => exact destutter'_concat_new h

theorem dedupByKey_concat_known {l : List α} {a b : α} (hlast : l.getLast? = some a)
    (hkey : key a = key b) : dedupByKey key (l ++ [b]) = dedupByKey key l := by
  cases l with
  | nil => cases hlast
  | cons c l =>
      rw [List.getLast?_eq_some_getLast (List.cons_ne_nil c l), Option.some.injEq] at hlast
      exact destutter'_concat_known (by rw [hlast, hkey])

/-! ## Keys of any linear order -/

section
variable {α κ : Type} [LinearOrder κ] {r : α → α → Prop} [DecidableRel r] {key : α → κ}

theorem pairwise_insertionSort_key (h : ∀ a b, r a b ↔ key a ≤ key b) (l : List α) :
    ((l.insertionSort r).map key).Pairwise (· ≤ ·) := by
  have htotal : Std.Total r := ⟨fun a b => by simpa only [h] using le_total (key a) (key b)⟩
  have htrans : IsTrans α r := ⟨fun a b c => by simpa only [h] using le_trans⟩
  rw [List.pairwise_map]
  exact (List.pairwise_insertionSort r l).imp fun hr => (h _ _).1 hr

/-- Distinct keys increase strictly. -/
theorem insertionSort_strict (key : α → κ) (h : ∀ a b, r a b ↔ key a ≤ key b) {l : List α}
    (hkeys : (l.map key).Nodup) : (l.insertionSort r).Pairwise (key · < key ·) := by
  have hle := List.pairwise_map.1 (pairwise_insertionSort_key h l)
  have hnodup := ((List.perm_insertionSort r l).map key).nodup_iff.2 hkeys
  exact (hle.and (List.pairwise_map.1 hnodup)).imp fun hab => hab.1.lt_of_ne hab.2

/-- Sorting by distinct keys forgets the order of the input. -/
theorem insertionSort_eq_of_perm (key : α → κ) (h : ∀ a b, r a b ↔ key a ≤ key b) {l m : List α}
    (hperm : l.Perm m) (hkeys : (m.map key).Nodup) : l.insertionSort r = m.insertionSort r := by
  have hl := (List.perm_insertionSort r l).trans hperm
  have hm := List.perm_insertionSort r m
  have hsorted := fun l => List.pairwise_map.1 (pairwise_insertionSort_key h l)
  refine List.Perm.eq_of_pairwise ?_ (hsorted l) (hsorted m) (hl.trans hm.symm)
  intro a b ha hb hab hba
  exact List.inj_on_of_nodup_map hkeys (hl.mem_iff.1 ha) (hm.mem_iff.1 hb) (le_antisymm hab hba)

/-- Of an ordered list the first elements are those with few elements before them. -/
theorem mem_take_iff_countP {key : α → κ} {l : List α} (h : l.Pairwise (key · < key ·)) {a : α}
    {n : ℕ} : a ∈ l.take n ↔ a ∈ l ∧ l.countP (fun b => key b < key a) < n := by
  induction l generalizing n with
  | nil => simp
  | cons b l ih =>
      rw [List.pairwise_cons] at h
      obtain ⟨hb, hl⟩ := h
      -- nothing comes before the head, and the head comes before the rest
      have hhead : (b :: l).countP (fun c => key c < key b) = 0 := by
        rw [List.countP_eq_zero]
        intro c hc
        have hle : key b ≤ key c := by
          cases hc with
          | head => exact le_rfl
          | tail _ hc => exact (hb c hc).le
        simpa only [decide_eq_true_eq, not_lt] using hle
      have hrest : ∀ a ∈ l, (b :: l).countP (fun c => key c < key a) =
          l.countP (fun c => key c < key a) + 1 := by
        intro a ha
        rw [List.countP_cons, if_pos (decide_eq_true (hb a ha))]
      cases n with
      | zero => simp
      | succ n =>
          rw [List.take_succ_cons, List.mem_cons, List.mem_cons, ih hl]
          constructor
          · rintro (rfl | ⟨ha, hroom⟩)
            · exact ⟨.inl rfl, hhead ▸ n.succ_pos⟩
            · exact ⟨.inr ha, by rw [hrest a ha]; omega⟩
          · rintro ⟨rfl | ha, hroom⟩
            · exact .inl rfl
            · rw [hrest a ha] at hroom
              exact .inr ⟨ha, by omega⟩

/-- Sorting by distinct keys and keeping the first elements keeps those with few elements before
them, wherever these stand in the list. -/
theorem mem_take_insertionSort (key : α → κ) (h : ∀ a b, r a b ↔ key a ≤ key b) {l : List α}
    (hkeys : (l.map key).Nodup) {a : α} {n : ℕ} :
    a ∈ (l.insertionSort r).take n ↔ a ∈ l ∧ l.countP (fun b => key b < key a) < n := by
  have hperm := List.perm_insertionSort r l
  rw [mem_take_iff_countP (insertionSort_strict key h hkeys), hperm.mem_iff, hperm.countP_eq]

end

/-- Every order of what a filter and a function make of a list comes from an order of the list. -/
theorem exists_perm_of_filter_map {α β : Type} {f : α → β} {p : α → Bool} {l : List α} {m : List β}
    (h : m.Perm ((l.filter p).map f)) : ∃ l' : List α, l'.Perm l ∧ (l'.filter p).map f = m := by
  obtain ⟨kept, rfl, hkept⟩ := (congrFun (congrFun (List.eq_map_comp_perm f) m) _).mpr h
  refine ⟨kept ++ l.filter fun a => !p a, ?_, ?_⟩
  · exact (hkept.append_right _).trans (List.filter_append_perm p l)
  · have hall : kept.filter p = kept :=
      List.filter_eq_self.2 fun a ha => (List.mem_filter.1 (hkept.mem_iff.1 ha)).2
    have hnone : (l.filter fun a => !p a).filter p = [] := by
      rw [List.filter_filter, List.filter_eq_nil_iff]
      intro a _
      simp
    rw [List.filter_append, hall, hnone, List.append_nil]

end KeyedLists
