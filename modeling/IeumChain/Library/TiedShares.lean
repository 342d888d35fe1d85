import IeumChain.Library.Budget
import Mathlib.Data.List.Sort
import Mathlib.Data.List.TakeWhile

/-!
# Shares under one key

Shares are paid in the order of their keys. Shares under one key stay in the order in which
they came, so the payments may depend on that order. They do not exactly when of two
different shares under one key the smaller one takes all that is left.
-/
namespace Budget

section
variable {α : Type}

theorem pay_cons (budget : ℕ) (s : α × ℕ) (rest : List (α × ℕ)) :
    pay budget (s :: rest) =
      (if 0 < min s.2 budget then [(s.1, min s.2 budget)] else []) ++ pay (budget - s.2) rest := by
  have hleft : budget - min s.2 budget = budget - s.2 := by omega
  obtain ⟨a, share⟩ := s
  simp only [pay]
  split_ifs with hpos
  · rw [hleft]
    rfl
  · have hsame : budget - share = budget := by omega
    rw [hsame]
    rfl

theorem pay_append (budget : ℕ) (first rest : List (α × ℕ)) :
    pay budget (first ++ rest) =
      pay budget first ++ pay (budget - (first.map Prod.snd).sum) rest := by
  induction first generalizing budget with
  | nil => rfl
  | cons s first ih =>
      rw [List.cons_append, pay_cons, pay_cons, ih, List.append_assoc, List.map_cons,
        List.sum_cons, Nat.sub_sub]

/-- What is paid for the share at a place: no more than the shares before it leave. -/
def cut (budget : ℕ) (shares : List (α × ℕ)) (i : ℕ) : Option (α × ℕ) :=
  shares[i]?.bind fun s =>
    let amount := min s.2 (budget - ((shares.take i).map Prod.snd).sum)
    if 0 < amount then some (s.1, amount) else none

theorem cut_succ (budget : ℕ) (s : α × ℕ) (rest : List (α × ℕ)) (i : ℕ) :
    cut budget (s :: rest) (i + 1) = cut (budget - s.2) rest i := by
  rw [cut, cut, List.getElem?_cons_succ, List.take_succ_cons, List.map_cons, List.sum_cons,
    Nat.sub_sub]

/-- What is paid for each share depends on the sum of those before it only. -/
theorem pay_eq_filterMap (budget : ℕ) (shares : List (α × ℕ)) :
    pay budget shares = (List.range shares.length).filterMap (cut budget shares) := by
  induction shares generalizing budget with
  | nil => rfl
  | cons s rest ih =>
      have hrest : ((List.range rest.length).map Nat.succ).filterMap (cut budget (s :: rest)) =
          (List.range rest.length).filterMap (cut (budget - s.2) rest) := by
        rw [List.filterMap_map]
        exact List.filterMap_congr fun i _ => cut_succ budget s rest i
      have hfirst : cut budget (s :: rest) 0 =
          if 0 < min s.2 budget then some (s.1, min s.2 budget) else none := rfl
      rw [pay_cons, ih, List.length_cons, List.range_succ_eq_map, List.filterMap_cons, hrest,
        hfirst]
      split_ifs <;> rfl

/-- Of two shares one is nothing, or both are the same, or the smaller one takes the budget. -/
def Alike (budget a b : ℕ) : Prop :=
  (0 < a → a < b → budget ≤ a) ∧ (0 < b → b < a → budget ≤ b)

theorem Alike.mono {budget budget' a b : ℕ} (h : Alike budget a b) (hle : budget' ≤ budget) :
    Alike budget' a b :=
  ⟨fun hpos hlt => hle.trans (h.1 hpos hlt), fun hpos hlt => hle.trans (h.2 hpos hlt)⟩

theorem pay_swap {budget : ℕ} {s t : α × ℕ} (hkey : s.1 = t.1) (h : Alike budget s.2 t.2)
    (rest : List (α × ℕ)) : pay budget (s :: t :: rest) = pay budget (t :: s :: rest) := by
  obtain ⟨a, m⟩ := s
  obtain ⟨b, n⟩ := t
  cases hkey
  have hleft : budget - n - m = budget - m - n := Nat.sub_right_comm ..
  simp only [pay_cons, hleft, ← List.append_assoc]
  congr 1
  rcases lt_trichotomy m n with hlt | rfl | hlt
  · rcases Nat.eq_zero_or_pos m with rfl | hpos
    · simp
    · have hle := h.1 hpos hlt
      simp [min_eq_right hle, min_eq_right (hle.trans hlt.le), Nat.sub_eq_zero_of_le hle,
        Nat.sub_eq_zero_of_le (hle.trans hlt.le)]
  · rfl
  · rcases Nat.eq_zero_or_pos n with rfl | hpos
    · simp
    · have hle := h.2 hpos hlt
      simp [min_eq_right hle, min_eq_right (hle.trans hlt.le), Nat.sub_eq_zero_of_le hle,
        Nat.sub_eq_zero_of_le (hle.trans hlt.le)]

/-- A share moves to the front over shares under its key. -/
theorem pay_to_front {budget : ℕ} {s : α × ℕ} {before : List (α × ℕ)}
    (h : ∀ t ∈ before, t.1 = s.1 ∧ Alike budget t.2 s.2) (rest : List (α × ℕ)) :
    pay budget (before ++ s :: rest) = pay budget (s :: (before ++ rest)) := by
  induction before generalizing budget with
  | nil => rfl
  | cons t before ih =>
      rw [List.forall_mem_cons] at h
      have hsmaller : ∀ u ∈ before, u.1 = s.1 ∧ Alike (budget - t.2) u.2 s.2 :=
        fun u hu => ⟨(h.2 u hu).1, (h.2 u hu).2.mono (Nat.sub_le ..)⟩
      calc pay budget (t :: before ++ s :: rest)
          = pay budget (t :: s :: (before ++ rest)) := by
            rw [List.cons_append, pay_cons, ih hsmaller, ← pay_cons]
        _ = pay budget (s :: (t :: before ++ rest)) := pay_swap h.1.1 h.1.2 _

end

section
variable {α : Type} [LinearOrder α]

/-- The shares in the order of their keys. -/
def sorted (shares : List (α × ℕ)) : List (α × ℕ) := shares.insertionSort (·.1 ≤ ·.1)

/-- What the shares under smaller keys leave of the budget. -/
def left (budget : ℕ) (shares : List (α × ℕ)) (a : α) : ℕ :=
  budget - ((shares.filter fun s => s.1 < a).map Prod.snd).sum

/-- Of two different shares under one key the smaller one is nothing or takes all that is left. -/
def OrderFree (budget : ℕ) (shares : List (α × ℕ)) : Prop :=
  ∀ s ∈ shares, ∀ t ∈ shares, s.1 = t.1 → 0 < s.2 → s.2 < t.2 → left budget shares s.1 ≤ s.2

variable {budget : ℕ} {shares shares' : List (α × ℕ)}

theorem left_perm (h : shares.Perm shares') (a : α) :
    left budget shares a = left budget shares' a := by
  rw [left, left, ((h.filter _).map _).sum_eq]

theorem OrderFree.perm (h : OrderFree budget shares) (hperm : shares.Perm shares') :
    OrderFree budget shares' := by
  intro s hs t ht hkey hpos hlt
  rw [← left_perm hperm]
  exact h s (hperm.mem_iff.2 hs) t (hperm.mem_iff.2 ht) hkey hpos hlt

theorem left_cons_le (s : α × ℕ) (rest : List (α × ℕ)) (a : α) :
    left (budget - s.2) rest a ≤ left budget (s :: rest) a := by
  unfold left
  by_cases hlt : s.1 < a
  · simp only [List.filter_cons, hlt, decide_true, if_true, List.map_cons, List.sum_cons]
    omega
  · simp only [List.filter_cons, hlt, decide_false, Bool.false_eq_true, if_false]
    omega

theorem OrderFree.tail {s : α × ℕ} (h : OrderFree budget (s :: shares)) :
    OrderFree (budget - s.2) shares := fun t ht u hu hkey hpos hlt =>
  (left_cons_le s shares t.1).trans
    (h t (List.mem_cons_of_mem _ ht) u (List.mem_cons_of_mem _ hu) hkey hpos hlt)

/-- Nothing comes before the first key. -/
theorem left_first {s : α × ℕ} (h : ∀ t ∈ shares, s.1 ≤ t.1) : left budget shares s.1 = budget := by
  have hnone : shares.filter (fun t => t.1 < s.1) = [] := by
    rw [List.filter_eq_nil_iff]
    intro t ht
    simpa using h t ht
  rw [left, hnone]
  rfl

theorem pay_eq_of_perm (hsorted : shares.Pairwise (·.1 ≤ ·.1))
    (hsorted' : shares'.Pairwise (·.1 ≤ ·.1)) (hperm : shares.Perm shares')
    (h : OrderFree budget shares) : pay budget shares = pay budget shares' := by
  induction shares generalizing shares' budget with
  | nil => rw [hperm.nil_eq]
  | cons s rest ih =>
      obtain ⟨before, after, rfl⟩ := List.append_of_mem (hperm.mem_iff.1 List.mem_cons_self)
      rw [List.pairwise_cons] at hsorted
      have hfirst : ∀ t ∈ s :: rest, s.1 ≤ t.1 := by
        rw [List.forall_mem_cons]
        exact ⟨le_rfl, hsorted.1⟩
      -- what stands before the share in the other list is under its key
      have hbefore : ∀ t ∈ before, t.1 = s.1 ∧ Alike budget t.2 s.2 := by
        intro t ht
        have hmem : t ∈ s :: rest := hperm.mem_iff.2 (List.mem_append_left _ ht)
        have hkey : t.1 = s.1 := le_antisymm
          ((List.pairwise_append.1 hsorted').2.2 t ht s List.mem_cons_self) (hfirst t hmem)
        have hleft : left budget (s :: rest) s.1 = budget := left_first hfirst
        have hs := h s List.mem_cons_self t hmem hkey.symm
        have ht := h t hmem s List.mem_cons_self hkey
        rw [hleft] at hs
        rw [hkey, hleft] at ht
        exact ⟨hkey, ht, hs⟩
      have hrest : rest.Perm (before ++ after) :=
        (hperm.trans List.perm_middle).cons_inv
      have hsub : (before ++ after).Pairwise (·.1 ≤ ·.1) :=
        hsorted'.sublist ((List.Sublist.refl before).append (List.sublist_cons_self s after))
      rw [pay_to_front hbefore, pay_cons, pay_cons, ih hsorted.2 hsub hrest h.tail]

theorem sorted_pairwise (shares : List (α × ℕ)) : (sorted shares).Pairwise (·.1 ≤ ·.1) :=
  List.pairwise_insertionSort _ _

/-- The shares under smaller keys, in their order. -/
def below (shares : List (α × ℕ)) (a : α) : List (α × ℕ) :=
  (sorted shares).takeWhile fun s => s.1 < a

/-- The share that came first is the first one of its key. -/
theorem sorted_cons (s : α × ℕ) (rest : List (α × ℕ)) :
    ∃ after, sorted (s :: rest) = below rest s.1 ++ s :: after := by
  refine ⟨(sorted rest).dropWhile fun b => ¬s.1 ≤ b.1, ?_⟩
  have htake : below rest s.1 = (sorted rest).takeWhile fun b => ¬s.1 ≤ b.1 := by
    simp only [below, not_le]
  rw [htake]
  exact List.insertionSort_cons_eq_take_drop _ s rest

theorem below_cons_self {s : α × ℕ} {a : α} (h : s.1 = a) (rest : List (α × ℕ)) :
    below (s :: rest) a = below rest a := by
  obtain ⟨after, hsorted⟩ := sorted_cons s rest
  have hall : ∀ t ∈ below rest s.1, decide (t.1 < s.1) = true := by
    intro t ht
    exact List.mem_takeWhile_imp (p := fun u : α × ℕ => decide (u.1 < s.1)) ht
  have hself : decide (s.1 < s.1) = false := decide_eq_false (lt_irrefl _)
  rw [← h, below, hsorted, List.takeWhile_append_of_pos hall, List.takeWhile_cons, hself]
  exact List.append_nil _

theorem takeWhile_eq_filter {a : α} (h : shares.Pairwise (·.1 ≤ ·.1)) :
    shares.takeWhile (fun s => s.1 < a) = shares.filter fun s => s.1 < a := by
  induction shares with
  | nil => rfl
  | cons s rest ih =>
      rw [List.pairwise_cons] at h
      rw [List.takeWhile_cons, List.filter_cons]
      by_cases hlt : s.1 < a
      · simp only [hlt, decide_true, if_true, ih h.2]
      · have hnone : rest.filter (fun t => t.1 < a) = [] := by
          rw [List.filter_eq_nil_iff]
          intro t ht
          simpa using (not_lt.1 hlt).trans (h.1 t ht)
        simp only [hlt, decide_false, Bool.false_eq_true, if_false, hnone]

theorem left_eq (budget : ℕ) (shares : List (α × ℕ)) (a : α) :
    left budget shares a = budget - ((below shares a).map Prod.snd).sum := by
  have hperm : (sorted shares).Perm shares := List.perm_insertionSort _ _
  rw [← left_perm hperm, left, below, takeWhile_eq_filter (sorted_pairwise shares)]

/-- The payments are the same for every order of the shares exactly if shares under one key are
alike. -/
theorem pay_sorted_perm_iff :
    (∀ shares', shares'.Perm shares → pay budget (sorted shares') = pay budget (sorted shares)) ↔
      OrderFree budget shares := by
  have hsort : ∀ l : List (α × ℕ), (sorted l).Perm l := List.perm_insertionSort _
  constructor
  · intro h s hs t ht hkey hpos hlt
    by_contra hle
    have hne : s ≠ t := by
      rintro rfl
      exact lt_irrefl _ hlt
    obtain ⟨rest, hrest⟩ : ∃ rest, shares.Perm (s :: t :: rest) := by
      refine ⟨(shares.erase s).erase t, (List.perm_cons_erase hs).trans ?_⟩
      exact (List.perm_cons_erase ((List.mem_erase_of_ne hne.symm).2 ht)).cons s
    have hswap : shares.Perm (t :: s :: rest) := hrest.trans (.swap t s rest)
    have hsame : pay budget (sorted (s :: t :: rest)) = pay budget (sorted (t :: s :: rest)) :=
      (h _ hrest.symm).trans (h _ hswap.symm).symm
    obtain ⟨after, hfirst⟩ := sorted_cons s (t :: rest)
    obtain ⟨after', hsecond⟩ := sorted_cons t (s :: rest)
    have hleft : budget - ((below rest s.1).map Prod.snd).sum = left budget shares s.1 := by
      rw [left_perm hrest, left_eq, below_cons_self rfl, below_cons_self hkey.symm]
    rw [hfirst, hsecond, below_cons_self hkey.symm, ← hkey, below_cons_self rfl, pay_append,
      pay_append, hleft, List.append_cancel_left_eq, pay_cons, pay_cons] at hsame
    -- either share would be paid first, and they are paid different amounts
    rw [if_pos (by omega), if_pos (by omega)] at hsame
    have hamount := congrArg Prod.snd (List.cons.inj hsame).1
    simp only at hamount
    omega
  · intro h shares' hperm
    have hall : (sorted shares).Perm (sorted shares') :=
      (hsort shares).trans (hperm.symm.trans (hsort shares').symm)
    exact (pay_eq_of_perm (sorted_pairwise _) (sorted_pairwise _) hall
      (h.perm (hsort shares).symm)).symm

end

end Budget
