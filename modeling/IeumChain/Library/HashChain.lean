import Mathlib.Data.Set.Function
import Mathlib.Tactic.Common

/-!
# Chains of hashes

Each link of a chain is hashed from the hash before it and its number. Without collisions among
the hashed inputs the end of a chain determines its length and its start.
-/
namespace HashChain

section
variable {ι κ : Type*} (hash : ι → κ) (start : ι) (link : κ → ℕ → ι)

/-- What is hashed in each step. -/
def input : ℕ → ι
  | 0 => start
  | n + 1 => link (hash (input n)) (n + 1)

/-- Everything that is hashed up to a step. -/
def inputs (n : ℕ) : Set ι := {x | ∃ i ≤ n, x = input hash start link i}

theorem input_mem_inputs {i n : ℕ} (h : i ≤ n) :
    input hash start link i ∈ inputs hash start link n := ⟨i, h, rfl⟩

theorem inputs_subset {m n : ℕ} (h : m ≤ n) :
    inputs hash start link m ⊆ inputs hash start link n := by
  rintro x ⟨i, hi, rfl⟩
  exact input_mem_inputs hash start link (hi.trans h)

/-- The loop over the numbers of the links. -/
theorem foldl_links (n : ℕ) :
    (List.range' 1 n).foldl (fun key i => hash (link key i)) (hash start) =
      hash (input hash start link n) := by
  induction n with
  | zero => rfl
  | succ n ih =>
      rw [List.range'_1_concat, List.foldl_append, ih, List.foldl_cons, List.foldl_nil,
        Nat.add_comm 1 n]
      rfl

variable {hash start link} {start' : ι} {link' : κ → ℕ → ι}

/-- Chains of one length that end alike start alike. -/
theorem start_eq {n : ℕ}
    (hinj : Set.InjOn hash (inputs hash start link n ∪ inputs hash start' link' n))
    (hlink : ∀ x y, ∀ i ≤ n, link (hash x) i = link' (hash y) i → hash x = hash y)
    (h : input hash start link n = input hash start' link' n) : start = start' := by
  induction n with
  | zero => exact h
  | succ n ih =>
      have hsubset : inputs hash start link n ∪ inputs hash start' link' n ⊆
          inputs hash start link (n + 1) ∪ inputs hash start' link' (n + 1) :=
        Set.union_subset_union (inputs_subset _ _ _ n.le_succ) (inputs_subset _ _ _ n.le_succ)
      have hbefore := hlink _ _ (n + 1) le_rfl h
      refine ih (hinj.mono hsubset) (fun x y i hi => hlink x y i (hi.trans n.le_succ)) ?_
      exact hinj (.inl (input_mem_inputs _ _ _ n.le_succ)) (.inr (input_mem_inputs _ _ _ n.le_succ))
        hbefore

/-- The number in the last link gives the length. -/
theorem chain_inj {n m : ℕ} (hn : 0 < n) (hm : 0 < m)
    (hinj : Set.InjOn hash (inputs hash start link n ∪ inputs hash start' link' m))
    (hlink : ∀ x y, ∀ i ≤ n, ∀ j ≤ m,
      link (hash x) i = link' (hash y) j → hash x = hash y ∧ i = j)
    (h : hash (input hash start link n) = hash (input hash start' link' m)) :
    n = m ∧ start = start' := by
  have hinput := hinj (.inl (input_mem_inputs _ _ _ le_rfl)) (.inr (input_mem_inputs _ _ _ le_rfl))
    h
  have hlength : n = m := by
    obtain ⟨n, rfl⟩ := Nat.exists_eq_succ_of_ne_zero hn.ne'
    obtain ⟨m, rfl⟩ := Nat.exists_eq_succ_of_ne_zero hm.ne'
    exact (hlink _ _ _ le_rfl _ le_rfl hinput).2
  subst hlength
  exact ⟨rfl, start_eq hinj (fun x y i hi hxy => (hlink x y i hi i hi hxy).1) hinput⟩

end

end HashChain
