import IeumChain.PeerSelection
import Mathlib.Data.List.Perm.Subperm

/-!
# The selection of peers and the order of the candidates

Every pass sorts by a key that ends with the id, so neither the order of the input nor that of
the map decides among different ids. Of several candidates with one id the first one counts.
-/
namespace IeumChain.TrafficRewards

open Outcome MachineWords FiniteMap KeyedLists

section
variable {policy : TrafficPolicy} {pool pool' candidates candidates' : List PeerCandidate}

/-- Candidates with distinct ids are sorted in one way by every key that has the id in it. -/
theorem sorted_perm {κ : Type} [LinearOrder κ] (key : PeerCandidate → κ)
    (hkey : ∀ a b, key a = key b → a.peerId = b.peerId) (hids : (pool.map (·.peerId)).Nodup)
    (hperm : pool'.Perm pool) :
    pool'.insertionSort (key · ≤ key ·) = pool.insertionSort (key · ≤ key ·) := by
  refine insertionSort_eq_of_perm key (fun _ _ => Iff.rfl) hperm ?_
  refine List.Nodup.map_on (fun a ha b hb h => ?_) (List.Nodup.of_map _ hids)
  exact List.inj_on_of_nodup_map hids ha hb (hkey a b h)

theorem peerId_of_nearbyKey (a b : PeerCandidate) (h : nearbyKey a = nearbyKey b) :
    a.peerId = b.peerId := by
  simp only [nearbyKey, EmbeddingLike.apply_eq_iff_eq, Prod.mk.injEq] at h
  exact h.2.2

theorem peerId_of_diverseKey (selected : List PeerCandidate) (a b : PeerCandidate)
    (h : diverseKey selected a = diverseKey selected b) : a.peerId = b.peerId := by
  simp only [diverseKey, EmbeddingLike.apply_eq_iff_eq, Prod.mk.injEq] at h
  exact h.2.2.2.2

theorem peerId_of_lowLoadKey (a b : PeerCandidate) (h : lowLoadKey a = lowLoadKey b) :
    a.peerId = b.peerId := by
  simp only [lowLoadKey, EmbeddingLike.apply_eq_iff_eq, Prod.mk.injEq] at h
  exact h.2.2.2

theorem peerId_of_fallbackKey (a b : PeerCandidate) (h : fallbackKey a = fallbackKey b) :
    a.peerId = b.peerId := by
  simp only [fallbackKey, EmbeddingLike.apply_eq_iff_eq, Prod.mk.injEq] at h
  exact h.2.2.2

/-- However the map lists the candidates, the same ones are selected. -/
theorem selectFrom_perm (policy : TrafficPolicy) (hids : (pool.map (·.peerId)).Nodup)
    (hperm : pool'.Perm pool) : selectFrom policy pool' = selectFrom policy pool := by
  have hstrict : selectStrict policy pool' = selectStrict policy pool := by
    simp only [selectStrict, sorted_perm nearbyKey peerId_of_nearbyKey hids hperm,
      sorted_perm (diverseKey _) (peerId_of_diverseKey _) hids hperm,
      sorted_perm lowLoadKey peerId_of_lowLoadKey hids hperm]
  simp only [selectFrom, selectRelaxed, hstrict,
    sorted_perm fallbackKey peerId_of_fallbackKey hids hperm]

/-- Well-formed candidates with one id are the same. -/
def Consistent (candidates : List PeerCandidate) : Prop :=
  ∀ a ∈ candidates, ∀ b ∈ candidates, a.WellFormed → b.WellFormed → a.peerId = b.peerId → a = b

instance (candidates : List PeerCandidate) : Decidable (Consistent candidates) :=
  inferInstanceAs (Decidable (∀ a ∈ candidates, ∀ b ∈ candidates, _))

theorem lookup_uniqueCandidates_eq_some (hconsistent : Consistent candidates) {id : String}
    {c : PeerCandidate} : (uniqueCandidates candidates).lookup id = some c ↔
      c ∈ candidates ∧ c.WellFormed ∧ c.peerId = id := by
  rw [lookup_uniqueCandidates]
  constructor
  · intro hfind
    have hholds := List.find?_some hfind
    simp only [decide_eq_true_eq] at hholds
    exact ⟨List.mem_of_find?_eq_some hfind, hholds⟩
  · rintro ⟨hmem, hwell, hid⟩
    have hsome : (candidates.find? fun c => c.WellFormed ∧ c.peerId = id).isSome = true := by
      rw [List.find?_isSome]
      exact ⟨c, hmem, by simpa using ⟨hwell, hid⟩⟩
    obtain ⟨d, hd⟩ := Option.isSome_iff_exists.1 hsome
    have hholds := List.find?_some hd
    simp only [decide_eq_true_eq] at hholds
    rw [hd, hconsistent d (List.mem_of_find?_eq_some hd) c hmem hholds.1 hwell
      (hholds.2.trans hid.symm)]

theorem uniqueCandidates_perm (hconsistent : Consistent candidates)
    (hperm : candidates'.Perm candidates) :
    (values (uniqueCandidates candidates')).Perm (values (uniqueCandidates candidates)) := by
  have hconsistent' : Consistent candidates' := fun a ha b hb =>
    hconsistent a (hperm.mem_iff.1 ha) b (hperm.mem_iff.1 hb)
  refine List.Perm.map _ (List.lookup_ext (AList.nodupKeys _) (AList.nodupKeys _) fun id c => ?_)
  have h : (uniqueCandidates candidates).lookup id = some c ↔ _ :=
    lookup_uniqueCandidates_eq_some hconsistent
  have h' : (uniqueCandidates candidates').lookup id = some c ↔ _ :=
    lookup_uniqueCandidates_eq_some hconsistent'
  rw [hperm.mem_iff] at h'
  exact h'.trans h.symm

/-! ## A policy with room for everybody -/

/-- All of `n` candidates are near enough. -/
def roomy (n : ℕ) : TrafficPolicy :=
  { targetConnections := n + 1, nearbySlots := n + 1, diversitySlots := 0, lowLoadSlots := 0
    maxPerCountry := n + 1, maxPerAsn := n + 1, maxBootstrapConnections := n + 1
    minimumUptimeBps := 0 }

theorem validate_roomy {n : ℕ} (h : n < u64Max) : (roomy n).validate = .ok () := by
  have hsum : wrappingAdd u64Max (wrappingAdd u64Max (n + 1) 0) 0 = n + 1 := by
    simp only [wrappingAdd, Nat.add_zero, Nat.mod_mod]
    exact Nat.mod_eq_of_lt (by omega)
  simp [TrafficPolicy.validate, roomy, hsum, bpsDenominator]

theorem length_le_of_admissible (h : Admissible policy pool candidates) :
    candidates.length ≤ pool.length :=
  (List.Nodup.subperm (List.Nodup.of_map _ h.distinct) h.pool).length_le

/-- Under it everybody is selected. -/
theorem mem_selectFrom_roomy {n : ℕ} (hn : n < u64Max) (hids : (pool.map (·.peerId)).Nodup)
    (hpool : pool.length ≤ n) {c : PeerCandidate} (hc : c ∈ pool) :
    c ∈ selectFrom (roomy n) pool := by
  have hadmissible := admissible_selectFrom (roomy n) pool
  have hlength := length_le_of_admissible hadmissible
  have hfree : (selectFrom (roomy n) pool).length < (roomy n).targetConnections := by
    change _ < n + 1
    omega
  rcases selectFrom_saturated (TrafficPolicy.target_le (validate_roomy hn)) hfree hc
    (Nat.zero_le _) with ⟨peer, hpeer, hid⟩ | ⟨-, hcap⟩
  · rwa [← List.inj_on_of_nodup_map hids (hadmissible.pool peer hpeer) hc hid]
  · have hle : bootstrapCount (selectFrom (roomy n) pool) ≤ (selectFrom (roomy n) pool).length :=
      List.length_filter_le _ _
    change _ = n + 1 at hcap
    omega

theorem length_uniqueCandidates_le (candidates : List PeerCandidate) :
    (values (uniqueCandidates candidates)).length ≤ candidates.length :=
  (List.Nodup.subperm (List.Nodup.of_map _ (nodup_uniqueCandidates candidates)) fun _ hc =>
    (mem_uniqueCandidates hc).1).length_le

/-- A candidate that comes first is looked at. -/
theorem mem_uniqueCandidates_first {a : PeerCandidate} {rest : List PeerCandidate}
    (hwell : a.WellFormed) : a ∈ values (uniqueCandidates (a :: rest)) := by
  refine mem_values.2 ⟨a.peerId, ?_⟩
  rw [lookup_uniqueCandidates, List.find?_cons_of_pos (by simpa using hwell)]

/-- Whatever the policy, the order of the candidates is without effect exactly if no two
different ones have one id. -/
theorem selection_orderFree_iff (hlength : candidates.length < u64Max) :
    (∀ policy : TrafficPolicy, policy.validate = .ok () →
      ∀ candidates' : List PeerCandidate, candidates'.Perm candidates →
        selectBalancedPeers policy candidates' = selectBalancedPeers policy candidates) ↔
      Consistent candidates := by
  constructor
  · intro h a ha b hb hawell hbwell hid
    have hselected : ∀ c ∈ candidates, c.WellFormed →
        c ∈ selectFrom (roomy candidates.length) (values (uniqueCandidates candidates)) := by
      intro c hc hwell
      have hperm := (List.perm_cons_erase hc).symm
      have hsame := h _ (validate_roomy hlength) _ hperm
      simp only [selectBalancedPeers, validate_roomy hlength] at hsame
      rw [← Except.ok.inj hsame]
      refine mem_selectFrom_roomy hlength (nodup_uniqueCandidates _) ?_
        (mem_uniqueCandidates_first hwell)
      rw [← hperm.length_eq]
      exact length_uniqueCandidates_le _
    have hdistinct := (admissible_selectFrom (roomy candidates.length)
      (values (uniqueCandidates candidates))).distinct
    exact List.inj_on_of_nodup_map hdistinct (hselected a ha hawell) (hselected b hb hbwell) hid
  · intro hconsistent policy _ candidates' hperm
    rw [selectBalancedPeers, selectBalancedPeers, selectFrom_perm policy
      (nodup_uniqueCandidates candidates) (uniqueCandidates_perm hconsistent hperm)]

end

/-! One id twice, with different latencies. -/

namespace TwiceListed

def peer (latencyMs : ℕ) : PeerCandidate :=
  { peerId := "peer", countryCode := "KR", asn := 100, latencyMs, uptimeBps := 9500
    capacity := 100, activeConnections := 10, isBootstrap := false }

/-- The first of the two is selected, whichever it is. -/
theorem first_listed_counts : TrafficPolicy.default.validate = .ok () ∧
    [peer 2, peer 1].Perm [peer 1, peer 2] ∧
    selectBalancedPeers .default [peer 1, peer 2] = .ok [peer 1] ∧
    selectBalancedPeers .default [peer 2, peer 1] = .ok [peer 2] := by
  refine ⟨by decide, List.Perm.swap _ _ _, ?_, ?_⟩
  · decide +kernel
  · decide +kernel

theorem selection_orderFree_iff_twice : ((∀ policy : TrafficPolicy, policy.validate = .ok () →
    ∀ candidates' : List PeerCandidate, candidates'.Perm [peer 1, peer 1] →
      selectBalancedPeers policy candidates' = selectBalancedPeers policy [peer 1, peer 1]) ↔
      Consistent [peer 1, peer 1]) ∧ Consistent [peer 1, peer 1] :=
  ⟨selection_orderFree_iff (by decide), by decide⟩

end TwiceListed

end IeumChain.TrafficRewards
