import IeumChain.Library.FiniteMap
import IeumChain.Library.Selection

/-!
# What enough sources report

Of every source only the latest report counts. A value is supported by the sources whose
latest report it is, and the highest value with enough support is agreed on.
-/
namespace LatestReports

open FiniteMap Selection

section
variable {κ β : Type} [DecidableEq κ]

def latest (reports : List (κ × β)) (k : κ) : Option β :=
  (reports.reverse.find? (·.1 = k)).map (·.2)

theorem latest_concat (reports : List (κ × β)) (r : κ × β) (k : κ) :
    latest (reports ++ [r]) k = if r.1 = k then some r.2 else latest reports k := by
  simp only [latest, List.reverse_append, List.reverse_cons, List.reverse_nil, List.nil_append,
    List.singleton_append, List.find?_cons]
  split_ifs with h <;> simp [h]

theorem lookup_collect (reports : List (κ × β)) (k : κ) :
    (collect reports).lookup k = latest reports k := by
  induction reports using List.reverseRecOn with
  | nil => rfl
  | append_singleton reports r ih =>
      rw [collect, List.foldl_concat, latest_concat]
      split_ifs with h
      · rw [← h]
        exact AList.lookup_insert _
      · rw [AList.lookup_insert_ne (Ne.symm h)]
        exact ih

theorem mem_of_latest_eq_some {reports : List (κ × β)} {k : κ} {b : β}
    (h : latest reports k = some b) : (k, b) ∈ reports := by
  rw [latest, Option.map_eq_some_iff] at h
  obtain ⟨r, hr, rfl⟩ := h
  have hkey : r.1 = k := by simpa using List.find?_some hr
  exact hkey ▸ List.mem_reverse.1 (List.mem_of_find?_eq_some hr)

/-- If the reports of a key agree, then each of them is its latest. -/
theorem latest_eq_some_iff {reports : List (κ × β)} {k : κ} {b : β}
    (hagree : ∀ b b', (k, b) ∈ reports → (k, b') ∈ reports → b = b') :
    latest reports k = some b ↔ (k, b) ∈ reports := by
  constructor
  · exact mem_of_latest_eq_some
  · intro hreport
    have hsome : (reports.reverse.find? (·.1 = k)).isSome := by
      rw [List.find?_isSome]
      exact ⟨(k, b), List.mem_reverse.2 hreport, decide_eq_true rfl⟩
    obtain ⟨r, hr⟩ := Option.isSome_iff_exists.1 hsome
    have hlatest : latest reports k = some r.2 := by rw [latest, hr, Option.map_some]
    rw [hlatest, hagree _ _ (mem_of_latest_eq_some hlatest) hreport]

/-- Enough sources have this as their latest report. -/
def Supported (quota : ℕ) (reports : List (κ × β)) (b : β) : Prop :=
  ∃ sources : Finset κ, quota ≤ sources.card ∧ ∀ k ∈ sources, latest reports k = some b

variable [DecidableEq β]

/-- A value occurs once for every key that has it. -/
theorem count_values (m : HashMap κ β) (b : β) :
    (values m).count b = (m.keys.toFinset.filter fun k => m.lookup k = some b).card := by
  have hkeys : m.keys.toFinset.filter (fun k => m.lookup k = some b) =
      (m.keys.filter fun k => m.lookup k = some b).toFinset := by
    ext k
    simp
  rw [hkeys, List.toFinset_card_of_nodup (m.keys_nodup.filter _), AList.keys, List.keys,
    List.filter_map, List.length_map, values, List.count, List.countP_map,
    List.countP_eq_length_filter]
  refine congrArg List.length (List.filter_congr fun e he => ?_)
  have hlookup : m.lookup e.1 = some e.2 := AList.mem_lookup_iff.2 he
  simp [hlookup, beq_eq_decide]

theorem supported_iff {quota : ℕ} {reports : List (κ × β)} {b : β} :
    Supported quota reports b ↔ quota ≤ (values (collect reports)).count b := by
  rw [count_values]
  constructor
  · rintro ⟨sources, hquota, hsources⟩
    refine hquota.trans (Finset.card_le_card fun k hk => ?_)
    have hlookup := (lookup_collect reports k).trans (hsources k hk)
    have hmem : k ∈ collect reports := AList.lookup_isSome.1 (by rw [hlookup]; rfl)
    exact Finset.mem_filter.2 ⟨List.mem_toFinset.2 (AList.mem_keys.1 hmem), hlookup⟩
  · intro hquota
    refine ⟨_, hquota, fun k hk => ?_⟩
    rw [← lookup_collect]
    exact (Finset.mem_filter.1 hk).2

variable {ν : Type} [LinearOrder ν]

/-- The highest value with enough support. -/
def agreed (quota : ℕ) (rank : β → ν) (m : HashMap κ β) : Option β :=
  match (values m).filter fun b => quota ≤ (values m).count b with
  | [] => none
  | first :: rest => some (rest.foldl (better rank) first)

/-- What is agreed on is supported, and nothing higher is. -/
theorem agreed_eq_some_iff {quota : ℕ} {rank : β → ν} (hquota : 0 < quota)
    (hrank : Function.Injective rank) {reports : List (κ × β)} {b : β} :
    agreed quota rank (collect reports) = some b ↔
      Supported quota reports b ∧ ∀ c, Supported quota reports c → rank c ≤ rank b := by
  have hmem : ∀ c, Supported quota reports c ↔
      c ∈ (values (collect reports)).filter fun b => quota ≤ (values (collect reports)).count b := by
    intro c
    rw [supported_iff, List.mem_filter, decide_eq_true_eq, iff_and_self]
    exact fun h => List.count_pos_iff.1 (hquota.trans_le h)
  unfold agreed
  simp only [hmem]
  generalize (values (collect reports)).filter _ = supported
  cases supported with
  | nil => simp
  | cons first rest =>
      obtain ⟨hbest, hmax⟩ := foldl_better rank first rest
      simp only [Option.some.injEq]
      constructor
      · rintro rfl
        exact ⟨hbest, hmax⟩
      · rintro ⟨hb, hhighest⟩
        exact hrank (le_antisymm (hhighest _ hbest) (hmax b hb))

end

end LatestReports
