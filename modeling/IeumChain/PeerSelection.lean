import IeumChain.Library.FiniteMap
import IeumChain.Library.KeyedLists
import IeumChain.Library.MachineWords
import IeumChain.Library.Outcome
import IeumChain.Library.Text
import IeumChain.TrafficRewards
import Mathlib.Data.Prod.Lex
import Mathlib.Data.String.Basic
import Mathlib.Order.OrderDual

/-!
# The selection of peers

A node fills its connections in four passes over differently sorted candidates: near peers,
peers of other countries and networks, peers with little load, and, where places are left,
whoever is up often enough. All passes add to one list.
-/
namespace IeumChain.TrafficRewards

open Text Outcome MachineWords FiniteMap KeyedLists

structure TrafficPolicy where
  targetConnections : ℕ
  nearbySlots : ℕ
  diversitySlots : ℕ
  lowLoadSlots : ℕ
  maxPerCountry : ℕ
  maxPerAsn : ℕ
  maxBootstrapConnections : ℕ
  minimumUptimeBps : ℕ
  deriving Repr, DecidableEq

namespace TrafficPolicy

def default : TrafficPolicy :=
  { targetConnections := 12, nearbySlots := 4, diversitySlots := 4, lowLoadSlots := 4
    maxPerCountry := 3, maxPerAsn := 2, maxBootstrapConnections := 1, minimumUptimeBps := 8000 }

def validate (p : TrafficPolicy) : Except String Unit := do
  reject (p.targetConnections = 0 ∨
    wrappingAdd u64Max (wrappingAdd u64Max p.nearbySlots p.diversitySlots) p.lowLoadSlots ≠
      p.targetConnections) "피어 슬롯 합계는 target_connections와 같아야 합니다."
  reject (p.maxPerCountry = 0 ∨ p.maxPerAsn = 0) "국가·ASN별 연결 상한은 1 이상이어야 합니다."
  reject (p.targetConnections < p.maxBootstrapConnections)
    "부트스트랩 연결 상한이 전체 연결 수보다 클 수 없습니다."
  reject (bpsDenominator < p.minimumUptimeBps) "최소 가동률은 10,000bps 이하여야 합니다."

end TrafficPolicy

structure PeerCandidate where
  peerId : String
  countryCode : String
  asn : ℕ
  latencyMs : ℕ
  uptimeBps : ℕ
  capacity : ℕ
  activeConnections : ℕ
  isBootstrap : Bool
  deriving Repr, DecidableEq

namespace PeerCandidate

def loadBps (c : PeerCandidate) : ℕ :=
  if c.capacity = 0 then bpsDenominator
  else min (c.activeConnections * bpsDenominator / c.capacity) bpsDenominator

/-- The candidates that are looked at. -/
def WellFormed (c : PeerCandidate) : Prop :=
  ¬(isBlank c.peerId = true ∨ isBlank c.countryCode = true ∨ c.capacity = 0)

instance (c : PeerCandidate) : Decidable c.WellFormed := inferInstanceAs (Decidable (¬_))

end PeerCandidate

def countryCount (peers : List PeerCandidate) (country : String) : ℕ :=
  (peers.filter fun peer => peer.countryCode = country).length

def asnCount (peers : List PeerCandidate) (asn : ℕ) : ℕ :=
  (peers.filter fun peer => peer.asn = asn).length

def bootstrapCount (peers : List PeerCandidate) : ℕ := (peers.filter (·.isBootstrap)).length

/-- Why a pass goes past a candidate. -/
def Skips (policy : TrafficPolicy) (relaxedDiversity : Bool) (selected : List PeerCandidate)
    (candidate : PeerCandidate) : Prop :=
  (∃ peer ∈ selected, peer.peerId = candidate.peerId) ∨
    candidate.uptimeBps < policy.minimumUptimeBps ∨
    (candidate.isBootstrap = true ∧ policy.maxBootstrapConnections ≤ bootstrapCount selected) ∨
    (relaxedDiversity = false ∧
      (policy.maxPerCountry ≤ countryCount selected candidate.countryCode ∨
        policy.maxPerAsn ≤ asnCount selected candidate.asn))

instance (policy : TrafficPolicy) (relaxedDiversity : Bool) (selected : List PeerCandidate)
    (candidate : PeerCandidate) : Decidable (Skips policy relaxedDiversity selected candidate) :=
  inferInstanceAs (Decidable (_ ∨ _ ∨ _ ∨ _))

def fillLoop (policy : TrafficPolicy) (relaxedDiversity : Bool) (target : ℕ) :
    List PeerCandidate → List PeerCandidate → List PeerCandidate
  | selected, [] => selected
  | selected, candidate :: rest =>
      if target ≤ selected.length then selected
      else if Skips policy relaxedDiversity selected candidate then
        fillLoop policy relaxedDiversity target selected rest
      else fillLoop policy relaxedDiversity target (selected ++ [candidate]) rest

def fillSlots (policy : TrafficPolicy) (candidates : List PeerCandidate) (count : ℕ)
    (selected : List PeerCandidate) (relaxedDiversity : Bool) : List PeerCandidate :=
  fillLoop policy relaxedDiversity (wrappingAdd u64Max selected.length count) selected candidates

/-- A candidate for each id, the first one that is well formed. -/
def uniqueCandidates (candidates : List PeerCandidate) : HashMap String PeerCandidate :=
  candidates.foldl (fun unique candidate =>
    if candidate.WellFormed then orInsert unique candidate.peerId candidate else unique) ∅

/-! ### The keys of the four passes -/

def nearbyKey (peer : PeerCandidate) : ℕ ×ₗ ℕᵒᵈ ×ₗ String :=
  toLex (peer.latencyMs, toLex (OrderDual.toDual peer.uptimeBps, peer.peerId))

def diverseKey (selected : List PeerCandidate) (peer : PeerCandidate) :
    ℕ ×ₗ ℕ ×ₗ ℕᵒᵈ ×ₗ ℕ ×ₗ String :=
  toLex (countryCount selected peer.countryCode, toLex (asnCount selected peer.asn,
    toLex (OrderDual.toDual peer.uptimeBps, toLex (peer.latencyMs, peer.peerId))))

def lowLoadKey (peer : PeerCandidate) : ℕ ×ₗ ℕᵒᵈ ×ₗ ℕ ×ₗ String :=
  toLex (peer.loadBps, toLex (OrderDual.toDual peer.uptimeBps, toLex (peer.latencyMs, peer.peerId)))

def fallbackKey (peer : PeerCandidate) : ℕ ×ₗ ℕ ×ₗ ℕᵒᵈ ×ₗ String :=
  toLex (peer.loadBps, toLex (peer.latencyMs, toLex (OrderDual.toDual peer.uptimeBps, peer.peerId)))

/-- What the first three passes select, of the candidates in some order. -/
def selectStrict (policy : TrafficPolicy) (candidates : List PeerCandidate) : List PeerCandidate :=
  let nearby := candidates.insertionSort (nearbyKey · ≤ nearbyKey ·)
  let selected := fillSlots policy nearby policy.nearbySlots [] false
  let diverse := candidates.insertionSort (diverseKey selected · ≤ diverseKey selected ·)
  let selected := fillSlots policy diverse policy.diversitySlots selected false
  let lowLoad := candidates.insertionSort (lowLoadKey · ≤ lowLoadKey ·)
  fillSlots policy lowLoad policy.lowLoadSlots selected false

/-- What the last pass adds to it, within the uptime and the cap of bootstrap peers only. -/
def selectRelaxed (policy : TrafficPolicy) (candidates selected : List PeerCandidate) :
    List PeerCandidate :=
  let fallback := candidates.insertionSort (fallbackKey · ≤ fallbackKey ·)
  fillSlots policy fallback (policy.targetConnections - selected.length) selected true

def selectFrom (policy : TrafficPolicy) (candidates : List PeerCandidate) : List PeerCandidate :=
  (selectRelaxed policy candidates (selectStrict policy candidates)).take policy.targetConnections

def selectBalancedPeers (policy : TrafficPolicy) (candidates : List PeerCandidate) :
    Except String (List PeerCandidate) := do
  policy.validate
  pure (selectFrom policy (values (uniqueCandidates candidates)))

/-! ## One pass -/

/-- What every pass keeps: distinct ids of the pool, often enough up, within the cap of bootstrap
peers. -/
structure Admissible (policy : TrafficPolicy) (pool selected : List PeerCandidate) : Prop where
  distinct : (selected.map (·.peerId)).Nodup
  pool : ∀ peer ∈ selected, peer ∈ pool
  uptime : ∀ peer ∈ selected, policy.minimumUptimeBps ≤ peer.uptimeBps
  bootstraps : bootstrapCount selected ≤ policy.maxBootstrapConnections

section
variable {policy : TrafficPolicy} {relaxed : Bool} {pool selected candidates : List PeerCandidate}
  {candidate : PeerCandidate} {target : ℕ}

theorem admissible_nil (policy : TrafficPolicy) (pool : List PeerCandidate) :
    Admissible policy pool [] :=
  ⟨List.nodup_nil, nofun, nofun, Nat.zero_le _⟩

theorem bootstrapCount_append (selected more : List PeerCandidate) :
    bootstrapCount (selected ++ more) = bootstrapCount selected + bootstrapCount more := by
  rw [bootstrapCount, List.filter_append, List.length_append, ← bootstrapCount, ← bootstrapCount]

theorem Admissible.concat (h : Admissible policy pool selected) (hpool : candidate ∈ pool)
    (hskips : ¬Skips policy relaxed selected candidate) :
    Admissible policy pool (selected ++ [candidate]) := by
  simp only [Skips, not_or, not_lt, not_and] at hskips
  obtain ⟨hnew, huptime, hcap, -⟩ := hskips
  refine ⟨?_, ?_, ?_, ?_⟩
  · rw [List.map_append, List.map_singleton, List.nodup_append_comm, List.singleton_append,
      List.nodup_cons]
    refine ⟨fun hmem => ?_, h.distinct⟩
    obtain ⟨peer, hpeer, hid⟩ := List.mem_map.1 hmem
    exact hnew ⟨peer, hpeer, hid⟩
  · simpa [or_imp, forall_and] using ⟨h.pool, hpool⟩
  · simpa [or_imp, forall_and] using ⟨h.uptime, huptime⟩
  · rw [bootstrapCount_append]
    cases hboot : candidate.isBootstrap with
    | false =>
        have hnone : bootstrapCount [candidate] = 0 := by simp [bootstrapCount, hboot]
        rw [hnone]
        exact h.bootstraps
    | true =>
        have hone : bootstrapCount [candidate] = 1 := by simp [bootstrapCount, hboot]
        have hroom := hcap hboot
        omega

theorem Admissible.fillLoop (h : Admissible policy pool selected)
    (hpool : ∀ c ∈ candidates, c ∈ pool) :
    Admissible policy pool (fillLoop policy relaxed target selected candidates) := by
  induction candidates generalizing selected with
  | nil => exact h
  | cons c rest ih =>
      rw [List.forall_mem_cons] at hpool
      rw [TrafficRewards.fillLoop]
      split_ifs with hfull hskips
      · exact h
      · exact ih h hpool.2
      · exact ih (h.concat hpool.1 hskips) hpool.2

/-- A pass only adds. -/
theorem prefix_fillLoop (policy : TrafficPolicy) (relaxed : Bool) (target : ℕ)
    (selected candidates : List PeerCandidate) :
    selected <+: fillLoop policy relaxed target selected candidates := by
  induction candidates generalizing selected with
  | nil => exact List.prefix_rfl
  | cons c rest ih =>
      rw [fillLoop]
      split_ifs
      · exact List.prefix_rfl
      · exact ih selected
      · exact (List.prefix_append _ _).trans (ih _)

theorem bootstrapCount_mono {more : List PeerCandidate} (h : selected <+: more) :
    bootstrapCount selected ≤ bootstrapCount more := by
  obtain ⟨rest, rfl⟩ := h
  rw [bootstrapCount_append]
  omega

/-- Where the relaxed pass leaves places free, it has gone past a candidate only because it was
selected, or up too seldom, or one bootstrap peer too many. -/
theorem fillLoop_saturated
    (hfree : (fillLoop policy true target selected candidates).length < target)
    (hmem : candidate ∈ candidates) (huptime : policy.minimumUptimeBps ≤ candidate.uptimeBps) :
    (∃ peer ∈ fillLoop policy true target selected candidates, peer.peerId = candidate.peerId) ∨
      candidate.isBootstrap = true ∧ policy.maxBootstrapConnections ≤
        bootstrapCount (fillLoop policy true target selected candidates) := by
  induction candidates generalizing selected with
  | nil => cases hmem
  | cons c rest ih =>
      have hstart := prefix_fillLoop policy true target selected (c :: rest)
      rw [fillLoop] at hfree hstart ⊢
      split_ifs at hfree hstart ⊢ with hfull hskips
      · omega
      · rcases List.mem_cons.1 hmem with rfl | hrest
        · rcases hskips with ⟨peer, hpeer, hid⟩ | hlow | ⟨hboot, hcap⟩ | ⟨hstrict, -⟩
          · exact .inl ⟨peer, hstart.subset hpeer, hid⟩
          · omega
          · exact .inr ⟨hboot, hcap.trans (bootstrapCount_mono hstart)⟩
          · cases hstrict
        · exact ih hfree hrest
      · rcases List.mem_cons.1 hmem with rfl | hrest
        · have hgrown := prefix_fillLoop policy true target (selected ++ [candidate]) rest
          exact .inl ⟨candidate, hgrown.subset (List.mem_append_right _ List.mem_cons_self), rfl⟩
        · exact ih hfree hrest

end

/-! ## All passes -/

section
variable {policy : TrafficPolicy} {pool selected : List PeerCandidate}

/-- A pass looks at the pool in the order of its key. -/
theorem Admissible.pass {κ : Type} [LinearOrder κ] (h : Admissible policy pool selected)
    (key : PeerCandidate → κ) (count : ℕ) (relaxed : Bool) :
    Admissible policy pool
      (fillSlots policy (pool.insertionSort (key · ≤ key ·)) count selected relaxed) :=
  h.fillLoop fun _ hc => (List.mem_insertionSort _).1 hc

theorem admissible_selectStrict (policy : TrafficPolicy) (pool : List PeerCandidate) :
    Admissible policy pool (selectStrict policy pool) :=
  (((admissible_nil policy pool).pass nearbyKey _ _).pass (diverseKey _) _ _).pass lowLoadKey _ _

theorem admissible_selectRelaxed (h : Admissible policy pool selected) :
    Admissible policy pool (selectRelaxed policy pool selected) :=
  h.pass fallbackKey _ _

theorem Admissible.take (h : Admissible policy pool selected) (n : ℕ) :
    Admissible policy pool (selected.take n) := by
  have hstart := List.take_prefix n selected
  refine ⟨?_, fun peer hpeer => h.pool peer (hstart.subset hpeer),
    fun peer hpeer => h.uptime peer (hstart.subset hpeer),
    (bootstrapCount_mono hstart).trans h.bootstraps⟩
  exact h.distinct.sublist (hstart.sublist.map _)

theorem admissible_selectFrom (policy : TrafficPolicy) (pool : List PeerCandidate) :
    Admissible policy pool (selectFrom policy pool) :=
  (admissible_selectRelaxed (admissible_selectStrict policy pool)).take _

/-- The last pass fills up to the target. -/
theorem selectRelaxed_saturated (hword : policy.targetConnections ≤ u64Max)
    (hfree : (selectRelaxed policy pool selected).length < policy.targetConnections)
    {candidate : PeerCandidate} (hmem : candidate ∈ pool)
    (huptime : policy.minimumUptimeBps ≤ candidate.uptimeBps) :
    (∃ peer ∈ selectRelaxed policy pool selected, peer.peerId = candidate.peerId) ∨
      candidate.isBootstrap = true ∧ policy.maxBootstrapConnections ≤
        bootstrapCount (selectRelaxed policy pool selected) := by
  have hstart := prefix_fillLoop policy true (wrappingAdd u64Max selected.length
    (policy.targetConnections - selected.length)) selected
      (pool.insertionSort (fallbackKey · ≤ fallbackKey ·))
  have hle : selected.length ≤ (selectRelaxed policy pool selected).length := hstart.length_le
  have htarget : wrappingAdd u64Max selected.length (policy.targetConnections - selected.length) =
      policy.targetConnections := by
    rw [wrappingAdd, Nat.add_sub_cancel' (by omega), Nat.mod_eq_of_lt (Nat.lt_succ_of_le hword)]
  have hloop : selectRelaxed policy pool selected = fillLoop policy true policy.targetConnections
      selected (pool.insertionSort (fallbackKey · ≤ fallbackKey ·)) := by
    rw [selectRelaxed, fillSlots, htarget]
  rw [hloop] at hfree ⊢
  exact fillLoop_saturated hfree ((List.mem_insertionSort _).2 hmem) huptime

/-- Places stay free only if every candidate that is up often enough was selected, or is a
bootstrap peer beyond the cap. -/
theorem selectFrom_saturated (hword : policy.targetConnections ≤ u64Max)
    (hfree : (selectFrom policy pool).length < policy.targetConnections)
    {candidate : PeerCandidate} (hmem : candidate ∈ pool)
    (huptime : policy.minimumUptimeBps ≤ candidate.uptimeBps) :
    (∃ peer ∈ selectFrom policy pool, peer.peerId = candidate.peerId) ∨
      candidate.isBootstrap = true ∧
        bootstrapCount (selectFrom policy pool) = policy.maxBootstrapConnections := by
  have hshort : (selectRelaxed policy pool (selectStrict policy pool)).length <
      policy.targetConnections := by
    rw [selectFrom, List.length_take] at hfree
    omega
  have hall : selectFrom policy pool = selectRelaxed policy pool (selectStrict policy pool) :=
    List.take_of_length_le hshort.le
  have hcap := (admissible_selectFrom policy pool).bootstraps
  rw [hall] at hcap ⊢
  rcases selectRelaxed_saturated hword hshort hmem huptime with hselected | ⟨hboot, hreached⟩
  · exact .inl hselected
  · exact .inr ⟨hboot, Nat.le_antisymm hcap hreached⟩

end

/-! ## The candidates by their ids -/

section
variable {candidates : List PeerCandidate}

theorem lookup_foldl_orInsert (m : HashMap String PeerCandidate) (id : String) :
    (candidates.foldl (fun unique candidate =>
      if candidate.WellFormed then orInsert unique candidate.peerId candidate else unique) m).lookup
        id = (m.lookup id).or (candidates.find? fun c => c.WellFormed ∧ c.peerId = id) := by
  induction candidates generalizing m with
  | nil => simp
  | cons c rest ih =>
      rw [List.foldl_cons, ih]
      by_cases hwell : c.WellFormed
      · rw [if_pos hwell, lookup_orInsert, Option.or_assoc, List.find?_cons]
        by_cases hid : id = c.peerId
        · simp [hid, hwell]
        · have hid' : ¬c.peerId = id := fun h => hid h.symm
          simp [hid, hid']
      · rw [if_neg hwell, List.find?_cons]
        simp [hwell]

/-- Of the well-formed candidates with an id the first one counts. -/
theorem lookup_uniqueCandidates (candidates : List PeerCandidate) (id : String) :
    (uniqueCandidates candidates).lookup id =
      candidates.find? fun c => c.WellFormed ∧ c.peerId = id := by
  rw [uniqueCandidates, lookup_foldl_orInsert, AList.lookup_empty, Option.none_or]

theorem mem_uniqueCandidates {c : PeerCandidate} (h : c ∈ values (uniqueCandidates candidates)) :
    c ∈ candidates ∧ c.WellFormed ∧ (uniqueCandidates candidates).lookup c.peerId = some c := by
  obtain ⟨id, hid⟩ := mem_values.1 h
  have hfind := hid
  rw [lookup_uniqueCandidates] at hfind
  have hholds := List.find?_some hfind
  simp only [decide_eq_true_eq] at hholds
  refine ⟨List.mem_of_find?_eq_some hfind, hholds.1, ?_⟩
  rw [hholds.2, hid]

theorem nodup_uniqueCandidates (candidates : List PeerCandidate) :
    ((values (uniqueCandidates candidates)).map (·.peerId)).Nodup := by
  have hkeys : (values (uniqueCandidates candidates)).map (·.peerId) =
      (uniqueCandidates candidates).keys := by
    rw [values, List.map_map, AList.keys, List.keys]
    refine List.map_congr_left fun e he => ?_
    have hlookup := AList.mem_lookup_iff.2 he
    rw [lookup_uniqueCandidates] at hlookup
    have hholds := List.find?_some hlookup
    simp only [decide_eq_true_eq] at hholds
    exact hholds.2
  rw [hkeys]
  exact AList.keys_nodup _

/-- With distinct ids all well-formed candidates are looked at. -/
theorem mem_values_uniqueCandidates (hids : (candidates.map (·.peerId)).Nodup) {c : PeerCandidate} :
    c ∈ values (uniqueCandidates candidates) ↔ c ∈ candidates ∧ c.WellFormed := by
  constructor
  · intro h
    obtain ⟨hmem, hwell, -⟩ := mem_uniqueCandidates h
    exact ⟨hmem, hwell⟩
  · rintro ⟨hmem, hwell⟩
    have hsome : ((uniqueCandidates candidates).lookup c.peerId).isSome = true := by
      rw [lookup_uniqueCandidates, List.find?_isSome]
      exact ⟨c, hmem, by simpa using hwell⟩
    obtain ⟨d, hd⟩ := Option.isSome_iff_exists.1 hsome
    have hfind := hd
    rw [lookup_uniqueCandidates] at hfind
    have hholds := List.find?_some hfind
    simp only [decide_eq_true_eq] at hholds
    have heq : d = c := List.inj_on_of_nodup_map hids (List.mem_of_find?_eq_some hfind) hmem hholds.2
    rw [← heq]
    exact mem_values.2 ⟨_, hd⟩

end

theorem TrafficPolicy.target_le {policy : TrafficPolicy} (h : policy.validate = .ok ()) :
    policy.targetConnections ≤ u64Max := by
  rw [validate, check_bind_eq_ok, reject_eq_ok, not_or] at h
  obtain ⟨⟨-, hsum⟩, -⟩ := h
  rw [Ne, not_not] at hsum
  rw [← hsum]
  exact Nat.le_of_lt_succ (Nat.mod_lt _ (Nat.succ_pos _))

/-- The selection keeps every limit, and where it leaves places free the other candidates that
are up often enough are bootstrap peers beyond the cap. -/
theorem selection_saturated {policy : TrafficPolicy} {candidates : List PeerCandidate}
    (hpolicy : policy.validate = .ok ()) (hids : (candidates.map (·.peerId)).Nodup) :
    ∃ selected, selectBalancedPeers policy candidates = .ok selected ∧
      selected.length ≤ policy.targetConnections ∧
      (selected.map (·.peerId)).Nodup ∧
      bootstrapCount selected ≤ policy.maxBootstrapConnections ∧
      (∀ peer ∈ selected, peer ∈ candidates ∧ policy.minimumUptimeBps ≤ peer.uptimeBps ∧
        0 < peer.capacity) ∧
      (selected.length < policy.targetConnections →
        ∀ c ∈ candidates, c.WellFormed → policy.minimumUptimeBps ≤ c.uptimeBps → c ∉ selected →
          c.isBootstrap = true ∧ bootstrapCount selected = policy.maxBootstrapConnections) := by
  have hadmissible := admissible_selectFrom policy (values (uniqueCandidates candidates))
  refine ⟨_, by rw [selectBalancedPeers, hpolicy]; rfl, List.length_take_le _ _,
    hadmissible.distinct, hadmissible.bootstraps, ?_, ?_⟩
  · intro peer hpeer
    obtain ⟨hmem, hwell, -⟩ := mem_uniqueCandidates (hadmissible.pool peer hpeer)
    simp only [PeerCandidate.WellFormed, not_or] at hwell
    exact ⟨hmem, hadmissible.uptime peer hpeer, Nat.pos_of_ne_zero hwell.2.2⟩
  · intro hfree c hc hwell huptime hnot
    have hpool := (mem_values_uniqueCandidates hids).2 ⟨hc, hwell⟩
    rcases selectFrom_saturated (TrafficPolicy.target_le hpolicy) hfree hpool huptime with
      ⟨peer, hpeer, hid⟩ | hcap
    · have hmem := (mem_uniqueCandidates (hadmissible.pool peer hpeer)).1
      cases List.inj_on_of_nodup_map hids hmem hc hid
      exact absurd hpeer hnot
    · exact hcap

/-! Three places and three peers, two of them bootstrap peers. -/

namespace ThreePeers

def policy : TrafficPolicy :=
  { targetConnections := 3, nearbySlots := 1, diversitySlots := 1, lowLoadSlots := 1
    maxPerCountry := 1, maxPerAsn := 1, maxBootstrapConnections := 1, minimumUptimeBps := 8000 }

def peer (peerId : String) (isBootstrap : Bool) : PeerCandidate :=
  { peerId, countryCode := "KR", asn := 100, latencyMs := 5, uptimeBps := 9500, capacity := 100
    activeConnections := 10, isBootstrap }

def candidates : List PeerCandidate := [peer "a" true, peer "b" true, peer "c" false]

theorem selection_saturated_three :
    ∃ selected, selectBalancedPeers policy candidates = .ok selected ∧
      selected.length ≤ policy.targetConnections ∧
      (selected.map (·.peerId)).Nodup ∧
      bootstrapCount selected ≤ policy.maxBootstrapConnections ∧
      (∀ peer ∈ selected, peer ∈ candidates ∧ policy.minimumUptimeBps ≤ peer.uptimeBps ∧
        0 < peer.capacity) ∧
      (selected.length < policy.targetConnections →
        ∀ c ∈ candidates, c.WellFormed → policy.minimumUptimeBps ≤ c.uptimeBps → c ∉ selected →
          c.isBootstrap = true ∧ bootstrapCount selected = policy.maxBootstrapConnections) :=
  selection_saturated (by decide) (by decide)

end ThreePeers

end IeumChain.TrafficRewards
