import Mathlib.Data.List.Nodup

/-!
# The last keys of a history

A window that remembers the last `n` keys knows a key until `n` others have come after it.
-/
namespace RecentKeys

variable {κ : Type} {n : ℕ}

/-- The last `n` keys. -/
def recent (n : ℕ) (history : List κ) : List κ := history.drop (history.length - n)

@[simp] theorem recent_nil : recent n ([] : List κ) = [] := List.drop_nil

theorem recent_of_length_le {history : List κ} (h : history.length ≤ n) :
    recent n history = history := by
  rw [recent, Nat.sub_eq_zero_of_le h, List.drop_zero]

/-- Enough later keys fill the window. -/
theorem recent_append_of_le (history : List κ) {later : List κ} (h : n ≤ later.length) :
    recent n (history ++ later) = recent n later := by
  have hdrop : (history ++ later).length - n = history.length + (later.length - n) := by
    rw [List.length_append]
    omega
  rw [recent, hdrop, List.drop_append, List.drop_of_length_le (Nat.le_add_right _ _),
    Nat.add_sub_cancel_left, List.nil_append, recent]

/-- Few later keys are all in the window, behind older ones. -/
theorem recent_append_of_ge {history later : List κ} (h : later.length ≤ n) :
    recent n (history ++ later) = recent (n - later.length) history ++ later := by
  have hdrop : (history ++ later).length - n = history.length - (n - later.length) := by
    rw [List.length_append]
    omega
  rw [recent, hdrop, List.drop_append_of_le_length (Nat.sub_le _ _), recent]

/-- The window of a history grows from the window alone. -/
theorem recent_recent_append (history later : List κ) :
    recent n (recent n history ++ later) = recent n (history ++ later) := by
  rcases Nat.le_total history.length n with hshort | hlong
  · rw [recent_of_length_le hshort]
  · have hlength : (recent n history).length = n := by
      rw [recent, List.length_drop]
      omega
    have hsplit : history = history.take (history.length - n) ++ recent n history :=
      (List.take_append_drop _ _).symm
    have hle : n ≤ (recent n history ++ later).length := by
      rw [List.length_append]
      omega
    conv_rhs => rw [hsplit, List.append_assoc, recent_append_of_le _ hle]

/-- A key is known until `n` others have come. -/
theorem mem_recent_of_few {history later : List κ} (k : κ) (h : later.length < n) :
    k ∈ recent n (history ++ k :: later) := by
  rw [recent_append_of_ge (Nat.succ_le_of_lt h)]
  exact List.mem_append_right _ List.mem_cons_self

/-- After `n` others it is not. -/
theorem notMem_recent_of_many {history later : List κ} {k : κ} (hlater : k ∉ later)
    (h : n ≤ later.length) : k ∉ recent n (history ++ later) := by
  rw [recent_append_of_le _ h]
  exact fun hk => hlater (List.mem_of_mem_drop hk)

theorem nodup_recent {history : List κ} (h : history.Nodup) : (recent n history).Nodup :=
  h.sublist (List.drop_sublist _ _)

end RecentKeys
