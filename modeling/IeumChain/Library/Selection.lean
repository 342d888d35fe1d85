import Mathlib.Data.List.Count
import Mathlib.Order.Lattice

/-!
# Choosing from lists

The best element under a rank, and the first elements of every group of an ordered list.
-/
namespace Selection

section
variable {α κ : Type} [LinearOrder κ] (rank : α → κ)

/-- Prefers what came first among equals. -/
def better (best next : α) : α := if rank best < rank next then next else best

theorem rank_le_better (a b : α) :
    rank a ≤ rank (better rank a b) ∧ rank b ≤ rank (better rank a b) := by
  unfold better
  split_ifs with h
  · exact ⟨h.le, le_rfl⟩
  · exact ⟨le_rfl, not_lt.1 h⟩

/-- The last one standing is an element, and none ranks above it. -/
theorem foldl_better (first : α) (rest : List α) :
    rest.foldl (better rank) first ∈ first :: rest ∧
      ∀ a ∈ first :: rest, rank a ≤ rank (rest.foldl (better rank) first) := by
  induction rest generalizing first with
  | nil =>
      refine ⟨List.mem_cons_self .., fun a ha => ?_⟩
      rw [List.mem_singleton.1 ha, List.foldl_nil]
  | cons next rest ih =>
      obtain ⟨hmem, hmax⟩ := ih (better rank first next)
      obtain ⟨hfirst, hnext⟩ := rank_le_better rank first next
      have hbest := hmax _ (List.mem_cons_self ..)
      rw [List.foldl_cons]
      refine ⟨?_, fun a ha => ?_⟩
      · rcases List.mem_cons.1 hmem with heq | hrest
        · have hchosen : better rank first next = first ∨ better rank first next = next := by
            unfold better
            split_ifs
            · exact .inr rfl
            · exact .inl rfl
          rw [heq]
          rcases hchosen with h | h
          · rw [h]
            exact List.mem_cons_self ..
          · rw [h]
            exact List.mem_cons_of_mem _ (List.mem_cons_self ..)
        · exact List.mem_cons_of_mem _ (List.mem_cons_of_mem _ hrest)
      · rcases List.mem_cons.1 ha with rfl | ha
        · exact hfirst.trans hbest
        · rcases List.mem_cons.1 ha with rfl | ha
          · exact hnext.trans hbest
          · exact hmax a (List.mem_cons_of_mem _ ha)

end

section
variable {α γ : Type} [DecidableEq γ] (quota : ℕ) (group : α → γ)

/-- Keeps as many elements of each group as the quota allows; `seen` are the groups of the
elements kept before. -/
def firstOfGroups : List γ → List α → List α
  | _, [] => []
  | seen, a :: rest =>
      if quota ≤ seen.count (group a) then firstOfGroups seen rest
      else a :: firstOfGroups (group a :: seen) rest

variable {quota group} {r : α → α → Prop} [DecidableRel r]

/-- In an ordered list an element is kept exactly if fewer elements of its group than the quota
come before it, kept or not. -/
theorem mem_firstOfGroups (hasymm : ∀ a b, r a b → ¬r b a) {seen : List γ} {l : List α}
    (hsorted : l.Pairwise r) {a : α} :
    a ∈ firstOfGroups quota group seen l ↔
      a ∈ l ∧ seen.count (group a) + l.countP (fun b => group b = group a ∧ r b a) < quota := by
  induction l generalizing seen with
  | nil => simp [firstOfGroups]
  | cons b rest ih =>
      rw [List.pairwise_cons] at hsorted
      obtain ⟨hb, hrest⟩ := hsorted
      -- nothing comes before the head
      have hhead : (b :: rest).countP (fun c => group c = group b ∧ r c b) = 0 := by
        rw [List.countP_eq_zero]
        intro c hc
        have hnot : ¬r c b := by
          rcases List.mem_cons.1 hc with rfl | hc
          · exact fun h => hasymm _ _ h h
          · exact hasymm _ _ (hb c hc)
        simp only [hnot, and_false, decide_false, Bool.false_eq_true, not_false_eq_true]
      have hcount : ∀ {a : α}, a ∈ rest →
          (b :: rest).countP (fun c => group c = group a ∧ r c a) =
            rest.countP (fun c => group c = group a ∧ r c a) +
              if group b = group a then 1 else 0 := by
        intro a ha
        rw [List.countP_cons]
        simp only [hb a ha, and_true, decide_eq_true_eq]
      simp only [firstOfGroups]
      split_ifs with hfull
      · rw [ih hrest]
        constructor
        · rintro ⟨ha, hroom⟩
          refine ⟨List.mem_cons_of_mem _ ha, ?_⟩
          rw [hcount ha]
          split_ifs with hgroup
          · rw [← hgroup] at hroom
            omega
          · omega
        · rintro ⟨ha, hroom⟩
          rcases List.mem_cons.1 ha with rfl | ha
          · omega
          · rw [hcount ha] at hroom
            exact ⟨ha, by omega⟩
      · rw [List.mem_cons, ih hrest]
        constructor
        · rintro (rfl | ⟨ha, hroom⟩)
          · refine ⟨List.mem_cons_self .., ?_⟩
            rw [hhead]
            omega
          · refine ⟨List.mem_cons_of_mem _ ha, ?_⟩
            rw [List.count_cons] at hroom
            rw [hcount ha]
            simp only [beq_iff_eq] at hroom
            omega
        · rintro ⟨ha, hroom⟩
          rcases List.mem_cons.1 ha with rfl | ha
          · exact .inl rfl
          · refine .inr ⟨ha, ?_⟩
            rw [hcount ha] at hroom
            rw [List.count_cons]
            simp only [beq_iff_eq]
            omega

end

end Selection
