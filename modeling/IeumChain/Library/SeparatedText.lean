import IeumChain.Library.Text

/-!
# Parts of a text with a separator between them

Two texts with a separator in the middle agree part by part, unless the separator stands in a
part itself. Decimal numbers have no colon, so they can be told from what stands around them.
-/
namespace SeparatedText

open Text

/-- Of two places of the separator the later one lies in the rest behind the earlier one. -/
theorem append_separator_cases {α : Type*} {c : α} {l m r q : List α}
    (h : l ++ c :: r = m ++ c :: q) :
    (l = m ∧ r = q) ∨ (∃ t, m = l ++ c :: t ∧ r = t ++ c :: q) ∨
      ∃ t, l = m ++ c :: t ∧ q = t ++ c :: r := by
  rcases List.append_eq_append_iff.1 h with ⟨t, hm, hr⟩ | ⟨t, hl, hq⟩
  · cases t with
    | nil =>
        rw [List.append_nil] at hm
        exact .inl ⟨hm.symm, (List.cons.inj hr).2⟩
    | cons d t =>
        obtain ⟨rfl, hrest⟩ := List.cons.inj hr
        exact .inr (.inl ⟨t, hm, hrest⟩)
  · cases t with
    | nil =>
        rw [List.append_nil] at hl
        exact .inl ⟨hl, (List.cons.inj hq).2.symm⟩
    | cons d t =>
        obtain ⟨rfl, hrest⟩ := List.cons.inj hq
        exact .inr (.inr ⟨t, hl, hrest⟩)

theorem append_cons_inj {α : Type*} {c : α} {l m r q : List α} (hl : c ∉ l) (hm : c ∉ m)
    (h : l ++ c :: r = m ++ c :: q) : l = m ∧ r = q := by
  rcases append_separator_cases h with hsame | ⟨t, rfl, -⟩ | ⟨t, rfl, -⟩
  · exact hsame
  · exact absurd (List.mem_append_right l (List.mem_cons_self ..)) hm
  · exact absurd (List.mem_append_right m (List.mem_cons_self ..)) hl

/-- What stands behind the last colon of a text, and what stands before it. -/
theorem append_colon_inj {a b s t : String} (hs : ':' ∉ s.toList) (ht : ':' ∉ t.toList)
    (h : a ++ ":" ++ s = b ++ ":" ++ t) : a = b ∧ s = t := by
  have hlists : s.toList.reverse ++ ':' :: a.toList.reverse =
      t.toList.reverse ++ ':' :: b.toList.reverse := by
    have hreversed := congrArg (fun x => x.toList.reverse) h
    simpa [String.toList_append] using hreversed
  obtain ⟨hend, hstart⟩ := append_cons_inj (by simpa using hs) (by simpa using ht) hlists
  exact ⟨String.toList_injective (List.reverse_injective hstart),
    String.toList_injective (List.reverse_injective hend)⟩

theorem decimal_injective : Function.Injective decimal := by
  intro m n h
  have hdigits : Nat.toDigits 10 m = Nat.toDigits 10 n := by
    rw [← Nat.toList_repr, ← Nat.toList_repr]
    exact congrArg String.toList h
  rw [← Nat.ofDigitChars_ten_toDigits (n := m), hdigits, Nat.ofDigitChars_ten_toDigits]

/-- A character that is no digit. -/
theorem notMem_decimal {c : Char} (hc : c.isDigit = false) (n : ℕ) : c ∉ (decimal n).toList := by
  have hdigits := allChars_decimal (p := Char.isDigit) (fun _ h => h) n
  rw [allChars, List.all_eq_true] at hdigits
  intro hmem
  rw [hdigits c hmem] at hc
  cases hc

theorem colon_notMem_decimal (n : ℕ) : ':' ∉ (decimal n).toList := notMem_decimal rfl n

end SeparatedText
