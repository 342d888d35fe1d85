import IeumChain.Library.KeyedLists
import IeumChain.ValidatorPolicy
import Mathlib.Data.Prod.Lex
import Mathlib.Data.String.Basic

/-!
# Who is selected

The selected validators are the leading ones among the candidates that qualify. Qualifying and
leading are counted over all candidates, so the order of the list plays no part in it.
-/
namespace IeumChain

open ByteCodec Text Outcome MachineWords FiniteMap KeyedLists

/-! ## The ranking -/

/-- Stakes fall, and identifiers rise among equal stakes. -/
def rankKey (standing : String × ℕ) : ℕᵒᵈ ×ₗ String :=
  toLex (OrderDual.toDual standing.2, standing.1)

/-- Strictly before the other in the ranking. -/
def ahead (left right : String × ℕ) : Prop :=
  right.2 < left.2 ∨ left.2 = right.2 ∧ left.1 < right.1

instance (left right : String × ℕ) : Decidable (ahead left right) :=
  inferInstanceAs (Decidable (_ ∨ _))

theorem stakeOrder_iff (left right : String × ℕ) :
    stakeOrder left right ↔ rankKey left ≤ rankKey right :=
  (Prod.Lex.toLex_le_toLex (x := (OrderDual.toDual left.2, left.1))
    (y := (OrderDual.toDual right.2, right.1))).symm

theorem ahead_iff (left right : String × ℕ) :
    ahead left right ↔ rankKey left < rankKey right :=
  (Prod.Lex.toLex_lt_toLex (x := (OrderDual.toDual left.2, left.1))
    (y := (OrderDual.toDual right.2, right.1))).symm

theorem rankKey_injective : Function.Injective rankKey := by
  intro left right h
  have hpair := toLex_inj.1 h
  exact Prod.ext (congrArg Prod.snd hpair) (OrderDual.toDual_inj.1 (congrArg Prod.fst hpair))

theorem nodup_map_rankKey {α : Type} {standing : α → String × ℕ} {l : List α}
    (h : (l.map fun a => (standing a).1).Nodup) : (l.map fun a => rankKey (standing a)).Nodup := by
  rw [List.Nodup, List.pairwise_map] at h ⊢
  exact h.imp fun hne heq => hne (congrArg Prod.fst (rankKey_injective heq))

def Eligible.key (e : Eligible) : ℕᵒᵈ ×ₗ String := rankKey (e.candidate.validatorId, e.stake)

theorem Eligible.order_iff (a b : Eligible) : a.order b ↔ a.key ≤ b.key := stakeOrder_iff ..

def SelectedValidator.key (v : SelectedValidator) : ℕᵒᵈ ×ₗ String :=
  rankKey (v.validator.id, v.stake)

theorem SelectedValidator.order_iff (a b : SelectedValidator) : a.order b ↔ a.key ≤ b.key :=
  stakeOrder_iff ..

/-! ## The policy -/

section
variable (balances : HashMap Address ℕ)

def ValidatorCandidate.stake (c : ValidatorCandidate) : ℕ :=
  getD balances (normalizeAccount c.stakeAccount) 0 + c.delegatedStake

def ValidatorCandidate.standing (c : ValidatorCandidate) : String × ℕ :=
  (c.validatorId, c.stake balances)

def ValidatorCandidate.selected (circulatingSupply : ℕ) (c : ValidatorCandidate) :
    SelectedValidator :=
  { validator := ⟨c.validatorId, votingPower (c.stake balances) circulatingSupply⟩
    stake := c.stake balances }

end

namespace ValidatorPolicy

section
variable (p : ValidatorPolicy) (balances : HashMap Address ℕ) (circulatingSupply : ℕ)
variable (candidates : List ValidatorCandidate)

/-- Unblocked, proven, reachable and up; the first epoch is not held against anyone. -/
def Admissible (c : ValidatorCandidate) : Prop :=
  c.blocked = false ∧ c.ownershipProofVerified = true ∧ c.nodeEndpoint ≠ none ∧
    (c.observedEpochs = 0 ∨ p.minUptimeBps ≤ c.uptimeBps)

instance (c : ValidatorCandidate) : Decidable (p.Admissible c) :=
  inferInstanceAs (Decidable (_ ∧ _))

/-- Ranks before a candidate of the same verified country. -/
def Outranks (d c : ValidatorCandidate) : Prop :=
  p.Admissible d ∧ d.identityCountryVerified = true ∧ d.countryCode = c.countryCode ∧
    ahead (d.standing balances) (c.standing balances)

instance (d c : ValidatorCandidate) : Decidable (p.Outranks balances d c) :=
  inferInstanceAs (Decidable (_ ∧ _))

/-- A share of the supply, a rank in a verified country, or the word of the administrator. -/
def HasRoute (c : ValidatorCandidate) : Prop :=
  circulatingSupply * p.minStakeBps ≤ c.stake balances * bpsDenominator ∨
    (c.identityCountryVerified = true ∧
      candidates.countP (p.Outranks balances · c) < p.countryRankLimit) ∨
    c.administratorApproved = true

instance (c : ValidatorCandidate) :
    Decidable (p.HasRoute balances circulatingSupply candidates c) :=
  inferInstanceAs (Decidable (_ ∨ _))

def Qualifies (c : ValidatorCandidate) : Prop :=
  p.Admissible c ∧ p.HasRoute balances circulatingSupply candidates c

instance (c : ValidatorCandidate) :
    Decidable (p.Qualifies balances circulatingSupply candidates c) :=
  inferInstanceAs (Decidable (_ ∧ _))

/-- Qualifies, and fewer of those who qualify are ahead than there are places. -/
def Leads (c : ValidatorCandidate) : Prop :=
  p.Qualifies balances circulatingSupply candidates c ∧
    candidates.countP (fun d => p.Qualifies balances circulatingSupply candidates d ∧
      ahead (d.standing balances) (c.standing balances)) < p.maxValidators

instance (c : ValidatorCandidate) : Decidable (p.Leads balances circulatingSupply candidates c) :=
  inferInstanceAs (Decidable (_ ∧ _))

/-- What the policy says about a result. -/
structure Meets (selected : List SelectedValidator) : Prop where
  sorted : selected.Pairwise fun a b => ahead (a.validator.id, a.stake) (b.validator.id, b.stake)
  enough : p.minValidators ≤ selected.length
  capped : selected.length ≤ p.maxValidators
  leading : ∀ v, v ∈ selected ↔ ∃ c ∈ candidates,
    p.Leads balances circulatingSupply candidates c ∧ v = c.selected balances circulatingSupply

end

/-- Every candidate is well formed, and no two share a key or an account. -/
structure Registered (candidates : List ValidatorCandidate) : Prop where
  valid : ∀ c ∈ candidates, validateCandidate c = .ok ()
  ids : (candidates.map (·.validatorId)).Nodup
  accounts : (candidates.map fun c => normalizeAccount c.stakeAccount).Nodup

section
variable {p : ValidatorPolicy} {balances : HashMap Address ℕ} {circulatingSupply : ℕ}
variable {candidates candidates' : List ValidatorCandidate}

theorem Registered.perm (h : Registered candidates) (hperm : candidates'.Perm candidates) :
    Registered candidates' where
  valid c hc := h.valid c (hperm.mem_iff.1 hc)
  ids := (hperm.map _).nodup_iff.2 h.ids
  accounts := (hperm.map _).nodup_iff.2 h.accounts

theorem qualifies_perm (hperm : candidates'.Perm candidates) (c : ValidatorCandidate) :
    p.Qualifies balances circulatingSupply candidates' c ↔
      p.Qualifies balances circulatingSupply candidates c := by
  unfold Qualifies HasRoute
  rw [hperm.countP_eq]

theorem leads_perm (hperm : candidates'.Perm candidates) {c : ValidatorCandidate} :
    p.Leads balances circulatingSupply candidates' c ↔
      p.Leads balances circulatingSupply candidates c := by
  have hahead : ∀ d ∈ candidates,
      decide (p.Qualifies balances circulatingSupply candidates' d ∧
        ahead (d.standing balances) (c.standing balances)) = true ↔
      decide (p.Qualifies balances circulatingSupply candidates d ∧
        ahead (d.standing balances) (c.standing balances)) = true :=
    fun d _ => by simp only [decide_eq_true_eq, qualifies_perm hperm]
  unfold Leads
  rw [hperm.countP_eq, List.countP_congr hahead, qualifies_perm hperm]

theorem Meets.perm {selected : List SelectedValidator}
    (h : p.Meets balances circulatingSupply candidates selected)
    (hperm : candidates'.Perm candidates) :
    p.Meets balances circulatingSupply candidates' selected where
  sorted := h.sorted
  enough := h.enough
  capped := h.capped
  leading v := by simp only [h.leading, hperm.mem_iff, leads_perm hperm]

end

/-! ## The stages of the selection -/

section
variable {p : ValidatorPolicy} {balances : HashMap Address ℕ} {circulatingSupply : ℕ}

theorem leavesOut_eq_false {c : ValidatorCandidate} : p.leavesOut c = false ↔ p.Admissible c := by
  simp only [leavesOut, Admissible, decide_eq_false_iff_not, not_or, not_and, not_lt,
    Bool.not_eq_true, Bool.not_eq_false, Nat.pos_iff_ne_zero]
  refine and_congr_right fun _ => and_congr_right fun _ => and_congr_right fun _ => ?_
  rw [← or_iff_not_imp_left]

/-- Keys that differ from each other and from those seen before. -/
def Fresh (seen keys : List String) : Prop := keys.Nodup ∧ ∀ k ∈ keys, k ∉ seen

theorem fresh_cons {seen keys : List String} {k : String} :
    Fresh seen (k :: keys) ↔ k ∉ seen ∧ Fresh (k :: seen) keys := by
  rw [Fresh, Fresh, List.nodup_cons, List.forall_mem_cons]
  constructor
  · rintro ⟨⟨hk, hkeys⟩, hseen, hall⟩
    refine ⟨hseen, hkeys, fun j hj hmem => ?_⟩
    rcases List.mem_cons.1 hmem with rfl | hmem
    · exact hk hj
    · exact hall j hj hmem
  · rintro ⟨hseen, hkeys, hall⟩
    exact ⟨⟨fun hk => hall k hk (List.mem_cons_self ..), hkeys⟩, hseen,
      fun j hj hmem => hall j hj (List.mem_cons_of_mem _ hmem)⟩

theorem eligibleLoop_eq_ok {ids accounts : List String} {candidates : List ValidatorCandidate}
    {es : List Eligible} :
    p.eligibleLoop balances circulatingSupply ids accounts candidates = .ok es ↔
      (∀ c ∈ candidates, validateCandidate c = .ok ()) ∧
      Fresh ids (candidates.map (·.validatorId)) ∧
      Fresh accounts (candidates.map fun c => normalizeAccount c.stakeAccount) ∧
      es = (candidates.filter (p.Admissible ·)).map (p.eligible balances circulatingSupply) := by
  induction candidates generalizing ids accounts es with
  | nil => simp [eligibleLoop, Fresh, eq_comm]
  | cons c rest ih =>
      simp only [eligibleLoop, check_bind_eq_ok]
      simp only [reject_eq_ok, bind_eq_ok, pure_eq_ok, ih, List.forall_mem_cons, List.map_cons,
        fresh_cons]
      have hes : (if p.leavesOut c = true then
          (rest.filter (p.Admissible ·)).map (p.eligible balances circulatingSupply)
          else p.eligible balances circulatingSupply c ::
            (rest.filter (p.Admissible ·)).map (p.eligible balances circulatingSupply)) =
          ((c :: rest).filter (p.Admissible ·)).map (p.eligible balances circulatingSupply) := by
        by_cases hc : p.Admissible c
        · simp [leavesOut_eq_false.2 hc, hc]
        · simp [Bool.eq_true_of_not_eq_false fun h => hc (leavesOut_eq_false.1 h), hc]
      constructor
      · rintro ⟨hvalid, hid, haccount, _, ⟨hrest, hids, haccounts, rfl⟩, rfl⟩
        exact ⟨⟨hvalid, hrest⟩, ⟨hid, hids⟩, ⟨haccount, haccounts⟩, hes⟩
      · rintro ⟨⟨hvalid, hrest⟩, ⟨hid, hids⟩, ⟨haccount, haccounts⟩, rfl⟩
        exact ⟨hvalid, hid, haccount, _, ⟨hrest, hids, haccounts, rfl⟩, hes⟩

variable (p balances circulatingSupply) in
/-- What is known of a candidate while no product saturates. -/
def judged (c : ValidatorCandidate) : Eligible :=
  { candidate := c, stake := c.stake balances
    hasMinimumStake := circulatingSupply * p.minStakeBps ≤ c.stake balances * bpsDenominator }

theorem eligible_eq (hp : p.validate = .ok ()) (hsupply : circulatingSupply < 2 ^ 100)
    {c : ValidatorCandidate} (hstake : c.stake balances < 2 ^ 100) :
    p.eligible balances circulatingSupply c = p.judged balances circulatingSupply c := by
  simp only [validate, check_bind_eq_ok, reject_eq_ok, not_or, not_lt] at hp
  obtain ⟨⟨-, hbps⟩, -⟩ := hp
  have hneeded : circulatingSupply * p.minStakeBps ≤ u128Max :=
    (Nat.mul_le_mul hsupply.le hbps).trans (by decide)
  have hheld : c.stake balances * bpsDenominator ≤ u128Max :=
    (Nat.mul_le_mul_right _ hstake.le).trans (by decide)
  have hsum : saturatingAdd u128Max (getD balances (normalizeAccount c.stakeAccount) 0)
      c.delegatedStake = c.stake balances :=
    min_eq_left (hstake.le.trans (by decide))
  rw [eligible, hsum, saturatingMul_of_le hneeded, saturatingMul_of_le hheld, judged]

/-- Those who rank high enough in their country, counted over everyone who is eligible. -/
theorem mem_countryRanked {es : List Eligible}
    (hids : (es.map fun e => e.candidate.validatorId).Nodup) {e : Eligible} (he : e ∈ es)
    (hcountry : e.candidate.identityCountryVerified = true → e.candidate.countryCode ≠ none) :
    e.candidate.validatorId ∈ p.countryRanked es ↔
      e.candidate.identityCountryVerified = true ∧
        es.countP (fun d => d.candidate.identityCountryVerified = true ∧
          d.candidate.countryCode = e.candidate.countryCode ∧
          ahead (d.candidate.validatorId, d.stake) (e.candidate.validatorId, e.stake)) <
            p.countryRankLimit := by
  have hranked : ∀ country, ∀ d : Eligible,
      d ∈ (((es.filter fun e => e.candidate.identityCountryVerified).filter
        fun e => e.candidate.countryCode = some country).insertionSort Eligible.order).take
          p.countryRankLimit ↔
      (d ∈ es ∧ d.candidate.identityCountryVerified = true ∧
        d.candidate.countryCode = some country) ∧
        es.countP (fun b => b.candidate.identityCountryVerified = true ∧
          b.candidate.countryCode = some country ∧
          ahead (b.candidate.validatorId, b.stake) (d.candidate.validatorId, d.stake)) <
            p.countryRankLimit := by
    intro country d
    have hkeys : ((((es.filter fun e => e.candidate.identityCountryVerified).filter
        fun e => e.candidate.countryCode = some country).map Eligible.key)).Nodup :=
      nodup_map_rankKey (hids.sublist ((List.filter_sublist.trans List.filter_sublist).map _))
    rw [mem_take_insertionSort Eligible.key Eligible.order_iff hkeys,
      List.countP_filter, List.countP_filter]
    simp only [List.mem_filter, decide_eq_true_eq, and_assoc]
    refine and_congr_right fun _ => and_congr_right fun _ => and_congr_right fun _ => ?_
    rw [List.countP_congr]
    intro b _
    simp only [Bool.and_eq_true, decide_eq_true_eq]
    rw [ahead_iff]
    exact ⟨fun h => ⟨h.2, h.1.2, h.1.1⟩, fun h => ⟨⟨h.2.2, h.2.1⟩, h.1⟩⟩
  simp only [countryRanked, List.mem_flatMap, List.mem_map, hranked, List.mem_dedup,
    List.mem_filterMap, List.mem_filter]
  constructor
  · rintro ⟨country, -, d, ⟨⟨hd, hverified, hcode⟩, hcount⟩, hid⟩
    obtain rfl := List.inj_on_of_nodup_map hids hd he hid
    rw [hcode]
    exact ⟨hverified, hcount⟩
  · rintro ⟨hverified, hcount⟩
    obtain ⟨country, hcode⟩ := Option.ne_none_iff_exists'.1 (hcountry hverified)
    rw [hcode] at hcount
    exact ⟨country, ⟨e, ⟨he, hverified⟩, hcode⟩, e, ⟨⟨he, hverified, hcode⟩, hcount⟩, rfl⟩

/-- A candidate with a verified country has a country. -/
theorem country_of_valid {c : ValidatorCandidate} (h : validateCandidate c = .ok ())
    (hverified : c.identityCountryVerified = true) : c.countryCode ≠ none := by
  simp only [validateCandidate, check_bind_eq_ok, reject_eq_ok, not_and, not_not] at h
  obtain ⟨-, -, hcountry, -⟩ := h
  intro hnone
  have hlength := hcountry hverified
  rw [hnone] at hlength
  cases hlength

section
variable (p balances circulatingSupply)

/-- The leading ones of those who qualify. -/
def leaders (candidates : List ValidatorCandidate) : List SelectedValidator :=
  (((candidates.filter (p.Qualifies balances circulatingSupply candidates ·)).map
    (·.selected balances circulatingSupply)).insertionSort SelectedValidator.order).take
      p.maxValidators

end

variable {candidates : List ValidatorCandidate}

theorem nodup_map_standing (h : Registered candidates) :
    (candidates.map fun c => rankKey (c.standing balances)).Nodup :=
  nodup_map_rankKey h.ids

variable (p balances circulatingSupply) in
/-- Those who meet the common conditions, as they are judged. -/
def admitted (candidates : List ValidatorCandidate) : List Eligible :=
  (candidates.filter (p.Admissible ·)).map (p.judged balances circulatingSupply)

theorem ids_admitted (hregistered : Registered candidates) :
    ((p.admitted balances circulatingSupply candidates).map
      fun e => e.candidate.validatorId).Nodup := by
  rw [admitted, List.map_map]
  exact hregistered.ids.sublist (List.filter_sublist.map _)

/-- The computed ranking agrees with the counted one. -/
theorem routed_iff (hregistered : Registered candidates) {c : ValidatorCandidate}
    (hc : c ∈ candidates) (hadmissible : p.Admissible c) :
    (circulatingSupply * p.minStakeBps ≤ c.stake balances * bpsDenominator ∨
      c.validatorId ∈ p.countryRanked (p.admitted balances circulatingSupply candidates) ∨
      c.administratorApproved = true) ↔ p.HasRoute balances circulatingSupply candidates c := by
  have hkept : p.judged balances circulatingSupply c ∈
      p.admitted balances circulatingSupply candidates :=
    List.mem_map_of_mem (List.mem_filter.2 ⟨hc, decide_eq_true hadmissible⟩)
  have hranked :
      c.validatorId ∈ p.countryRanked (p.admitted balances circulatingSupply candidates) ↔ _ :=
    mem_countryRanked (ids_admitted hregistered) hkept (country_of_valid (hregistered.valid c hc))
  have hcount : (p.admitted balances circulatingSupply candidates).countP (fun d =>
        d.candidate.identityCountryVerified = true ∧
          d.candidate.countryCode = c.countryCode ∧
          ahead (d.candidate.validatorId, d.stake) (c.validatorId, c.stake balances)) =
      candidates.countP (p.Outranks balances · c) := by
    rw [admitted, List.countP_map, List.countP_filter]
    refine List.countP_congr fun d _ => ?_
    rw [Function.comp_apply, Bool.and_eq_true, decide_eq_true_eq, decide_eq_true_eq,
      decide_eq_true_eq, and_comm]
    exact Iff.rfl
  unfold HasRoute
  rw [hranked, ← hcount]
  exact Iff.rfl

/-- The candidates with a route, as they are selected. -/
theorem routed_eq (hregistered : Registered candidates) :
    (((p.admitted balances circulatingSupply candidates).filter fun e =>
      e.hasMinimumStake = true ∨ e.candidate.validatorId ∈
        p.countryRanked (p.admitted balances circulatingSupply candidates) ∨
        e.candidate.administratorApproved = true).map fun e =>
          { validator := ⟨e.candidate.validatorId, votingPower e.stake circulatingSupply⟩
            stake := e.stake : SelectedValidator }) =
      (candidates.filter (p.Qualifies balances circulatingSupply candidates ·)).map
        (·.selected balances circulatingSupply) := by
  generalize hranked : p.countryRanked (p.admitted balances circulatingSupply candidates) = ranked
  rw [admitted, List.filter_map, List.filter_filter, List.map_map]
  have hfilter : candidates.filter (fun c => ((fun e : Eligible => decide
      (e.hasMinimumStake = true ∨ e.candidate.validatorId ∈ ranked ∨
        e.candidate.administratorApproved = true)) ∘ p.judged balances circulatingSupply) c &&
          decide (p.Admissible c)) =
      candidates.filter (p.Qualifies balances circulatingSupply candidates ·) := by
    refine List.filter_congr fun c hc => ?_
    rw [Bool.eq_iff_iff, Bool.and_eq_true, decide_eq_true_eq, decide_eq_true_eq, and_comm]
    refine and_congr_right fun hadmissible => ?_
    rw [← routed_iff hregistered hc hadmissible, hranked]
    simp only [Function.comp_apply, judged, decide_eq_true_eq]
  rw [hfilter]
  rfl

theorem select_eq_ok (hstake : ∀ c ∈ candidates, c.stake balances < 2 ^ 100)
    (hsupply : circulatingSupply < 2 ^ 100) {selected : List SelectedValidator} :
    p.select candidates balances circulatingSupply = .ok selected ↔
      p.validate = .ok () ∧ circulatingSupply ≠ 0 ∧ Registered candidates ∧
        selected = p.leaders balances circulatingSupply candidates ∧
        p.minValidators ≤ selected.length := by
  simp only [select, check_bind_eq_ok, reject_eq_ok]
  simp only [bind_eq_ok, reject_eq_ok, pure_eq_ok, eligibleLoop_eq_ok, not_lt]
  refine and_congr_right fun hp => and_congr_right fun _ => ?_
  have hjudged : (candidates.filter (p.Admissible ·)).map (p.eligible balances circulatingSupply) =
      p.admitted balances circulatingSupply candidates :=
    List.map_congr_left fun c hc => eligible_eq hp hsupply (hstake c (List.mem_of_mem_filter hc))
  rw [hjudged]
  constructor
  · rintro ⟨_, ⟨hvalid, hids, haccounts, rfl⟩, _, henough, rfl⟩
    have hregistered : Registered candidates := ⟨hvalid, hids.1, haccounts.1⟩
    rw [routed_eq hregistered] at henough ⊢
    exact ⟨hregistered, rfl, henough⟩
  · rintro ⟨hregistered, rfl, henough⟩
    refine ⟨_, ⟨hregistered.valid, ⟨hregistered.ids, fun _ _ => List.not_mem_nil⟩,
      ⟨hregistered.accounts, fun _ _ => List.not_mem_nil⟩, rfl⟩, (), ?_⟩
    rw [routed_eq hregistered]
    exact ⟨henough, rfl⟩

/-! ## The result -/

theorem nodup_selected (hregistered : Registered candidates) :
    (((candidates.filter (p.Qualifies balances circulatingSupply candidates ·)).map
      (·.selected balances circulatingSupply)).map SelectedValidator.key).Nodup := by
  rw [List.map_map]
  exact (nodup_map_standing hregistered).sublist (List.filter_sublist.map _)

theorem countP_selected (c : ValidatorCandidate) :
    ((candidates.filter (p.Qualifies balances circulatingSupply candidates ·)).map
      (·.selected balances circulatingSupply)).countP
        (fun v => v.key < (c.selected balances circulatingSupply).key) =
      candidates.countP (fun d => p.Qualifies balances circulatingSupply candidates d ∧
        ahead (d.standing balances) (c.standing balances)) := by
  rw [List.countP_map, List.countP_filter]
  refine List.countP_congr fun d _ => ?_
  rw [Function.comp_apply, Bool.and_eq_true, decide_eq_true_eq, decide_eq_true_eq,
    decide_eq_true_eq, and_comm, ahead_iff]
  exact Iff.rfl

theorem sorted_leaders (hregistered : Registered candidates) :
    (p.leaders balances circulatingSupply candidates).Pairwise (·.key < ·.key) := by
  have hsorted := insertionSort_strict SelectedValidator.key SelectedValidator.order_iff
    (@nodup_selected p balances circulatingSupply candidates hregistered)
  exact hsorted.sublist (List.take_sublist ..)

theorem mem_leaders (hregistered : Registered candidates) {v : SelectedValidator} :
    v ∈ p.leaders balances circulatingSupply candidates ↔ ∃ c ∈ candidates,
      p.Leads balances circulatingSupply candidates c ∧
        v = c.selected balances circulatingSupply := by
  rw [leaders, mem_take_insertionSort SelectedValidator.key SelectedValidator.order_iff
    (nodup_selected hregistered), List.mem_map]
  constructor
  · rintro ⟨⟨c, hc, rfl⟩, hroom⟩
    obtain ⟨hmem, hqualifies⟩ := List.mem_filter.1 hc
    rw [countP_selected] at hroom
    exact ⟨c, hmem, ⟨of_decide_eq_true hqualifies, hroom⟩, rfl⟩
  · rintro ⟨c, hmem, ⟨hqualifies, hroom⟩, rfl⟩
    rw [← countP_selected] at hroom
    exact ⟨⟨c, List.mem_filter.2 ⟨hmem, decide_eq_true hqualifies⟩, rfl⟩, hroom⟩

/-- The policy leaves no choice: what meets it are the leading candidates, if they are enough. -/
theorem meets_iff (hregistered : Registered candidates) {selected : List SelectedValidator} :
    p.Meets balances circulatingSupply candidates selected ↔
      selected = p.leaders balances circulatingSupply candidates ∧
        p.minValidators ≤ selected.length := by
  have hleaders := @sorted_leaders p balances circulatingSupply candidates hregistered
  constructor
  · intro h
    have hselected : selected.Pairwise (·.key < ·.key) :=
      h.sorted.imp fun hab => (ahead_iff _ _).1 hab
    have hnodup : ∀ {l : List SelectedValidator}, l.Pairwise (·.key < ·.key) → l.Nodup :=
      fun hl => hl.imp fun hab heq => (heq ▸ hab).false
    have hperm := (List.perm_ext_iff_of_nodup (hnodup hselected) (hnodup hleaders)).2 fun v => by
      rw [h.leading, mem_leaders hregistered]
    exact ⟨hperm.eq_of_pairwise (fun a b _ _ hab hba => (hab.not_gt hba).elim) hselected hleaders,
      h.enough⟩
  · rintro ⟨rfl, henough⟩
    refine ⟨hleaders.imp fun hab => (ahead_iff _ _).2 hab, henough, ?_,
      fun v => mem_leaders hregistered⟩
    rw [leaders, List.length_take]
    exact min_le_left _ _

theorem select_eq_ok_iff_meets (hstake : ∀ c ∈ candidates, c.stake balances < 2 ^ 100)
    (hsupply : circulatingSupply < 2 ^ 100) {selected : List SelectedValidator} :
    p.select candidates balances circulatingSupply = .ok selected ↔
      p.validate = .ok () ∧ circulatingSupply ≠ 0 ∧ Registered candidates ∧
        p.Meets balances circulatingSupply candidates selected := by
  rw [select_eq_ok hstake hsupply]
  refine and_congr_right fun _ => and_congr_right fun _ => and_congr_right fun hregistered => ?_
  exact (meets_iff hregistered).symm

/-- What is selected meets the policy, and the order of the candidates decides nothing. -/
theorem selection_meets_policy (hstake : ∀ c ∈ candidates, c.stake balances < 2 ^ 100)
    (hsupply : circulatingSupply < 2 ^ 100) :
    (∀ selected, p.select candidates balances circulatingSupply = .ok selected →
      p.Meets balances circulatingSupply candidates selected) ∧
    ∀ candidates', candidates'.Perm candidates → ∀ selected,
      p.select candidates' balances circulatingSupply = .ok selected ↔
        p.select candidates balances circulatingSupply = .ok selected := by
  refine ⟨fun selected h => ((select_eq_ok_iff_meets hstake hsupply).1 h).2.2.2, ?_⟩
  intro candidates' hperm selected
  have hstake' : ∀ c ∈ candidates', c.stake balances < 2 ^ 100 :=
    fun c hc => hstake c (hperm.mem_iff.1 hc)
  rw [select_eq_ok_iff_meets hstake' hsupply, select_eq_ok_iff_meets hstake hsupply]
  refine and_congr_right fun _ => and_congr_right fun _ => and_congr ?_ ?_
  · exact ⟨fun h => h.perm hperm.symm, fun h => h.perm hperm⟩
  · exact ⟨fun h => h.perm hperm.symm, fun h => h.perm hperm⟩

end

end ValidatorPolicy

theorem normalizeAccount_injective :
    Function.Injective fun bytes => normalizeAccount (hexEncode bytes) := by
  intro a b (h : normalizeAccount (hexEncode a) = normalizeAccount (hexEncode b))
  have htext : ∀ bytes, normalizeAccount (hexEncode bytes) = "0x" ++ hexEncode bytes := by
    intro bytes
    rw [normalizeAccount, trimHexMarkers_hexEncode,
      lowercase_of_hexDecode (hexDecode_hexEncode bytes)]
  rw [htext, htext] at h
  exact hexEncode_injective ((String.append_right_inj "0x").1 h)

/-! ## Four approved candidates -/

namespace FourApproved

def candidate (n : ℕ) : ValidatorCandidate :=
  { validatorId := hexEncode (List.replicate 32 (UInt8.ofNat n))
    stakeAccount := hexEncode (List.replicate 20 (UInt8.ofNat n))
    delegatedStake := n, countryCode := none, identityCountryVerified := false
    ownershipProofVerified := true, nodeEndpoint := some "quic", observedEpochs := 0
    uptimeBps := 0, administratorApproved := true, blocked := false }

def candidates : List ValidatorCandidate := [1, 2, 3, 4].map candidate

theorem validateCandidate_candidate (n : ℕ) : validateCandidate (candidate n) = .ok () := by
  have hquic : (some "quic" : Option String) ≠ some "" := by decide
  simp only [validateCandidate, candidate, check_bind_eq_ok, reject_eq_ok, hexDecode_hexEncode,
    trimHexMarkers_hexEncode, utf8ByteSize_hexEncode, List.length_replicate, Option.map_some]
  simp [hquic]

theorem registered_candidates : ValidatorPolicy.Registered candidates where
  valid c hc := by
    obtain ⟨n, -, rfl⟩ := List.mem_map.1 hc
    exact validateCandidate_candidate n
  ids := by
    have hbytes : ([1, 2, 3, 4].map fun n : ℕ => List.replicate 32 (UInt8.ofNat n)).Nodup := by
      decide
    have hids := hbytes.map hexEncode_injective
    rwa [List.map_map] at hids
  accounts := by
    have hbytes : ([1, 2, 3, 4].map fun n : ℕ => List.replicate 20 (UInt8.ofNat n)).Nodup := by
      decide
    have haccounts := hbytes.map normalizeAccount_injective
    rwa [List.map_map] at haccounts

theorem qualifies_candidate {c : ValidatorCandidate} (hc : c ∈ candidates) :
    ValidatorPolicy.default.Qualifies ∅ 1 candidates c := by
  obtain ⟨n, -, rfl⟩ := List.mem_map.1 hc
  exact ⟨⟨rfl, rfl, nofun, .inl rfl⟩, .inr (.inr rfl)⟩

theorem length_leaders :
    (ValidatorPolicy.default.leaders ∅ 1 candidates).length = 4 := by
  have hall : candidates.filter (ValidatorPolicy.default.Qualifies ∅ 1 candidates ·) = candidates :=
    List.filter_eq_self.2 fun c hc => decide_eq_true (qualifies_candidate hc)
  rw [ValidatorPolicy.leaders, hall, List.length_take, List.length_insertionSort, List.length_map]
  rfl

theorem stake_lt {c : ValidatorCandidate} (hc : c ∈ candidates) : c.stake ∅ < 2 ^ 100 := by
  obtain ⟨n, hn, rfl⟩ := List.mem_map.1 hc
  have hsmall : n ≤ 4 := by
    simp only [List.mem_cons, List.not_mem_nil, or_false] at hn
    omega
  have hstake : (candidate n).stake ∅ = n := Nat.zero_add n
  rw [hstake]
  exact hsmall.trans_lt (by decide)

/-- The default policy selects all four. -/
theorem selection_meets_policy_four :
    (∃ selected, ValidatorPolicy.default.select candidates ∅ 1 = .ok selected ∧
      ValidatorPolicy.default.Meets ∅ 1 candidates selected) ∧
    (ValidatorPolicy.default.select candidates.reverse ∅ 1).isOk = true := by
  have hsupply : 1 < 2 ^ 100 := by decide
  have hselect : ValidatorPolicy.default.select candidates ∅ 1 =
      .ok (ValidatorPolicy.default.leaders ∅ 1 candidates) :=
    (ValidatorPolicy.select_eq_ok (fun c => stake_lt) hsupply).2
      ⟨rfl, Nat.one_ne_zero, registered_candidates, rfl, length_leaders.ge⟩
  obtain ⟨hmeets, hperm⟩ := ValidatorPolicy.selection_meets_policy
    (p := ValidatorPolicy.default) (fun c => stake_lt) hsupply
  have hreverse := (hperm _ (List.reverse_perm _) _).2 hselect
  exact ⟨⟨_, hselect, hmeets _ hselect⟩, isOk_iff.2 ⟨_, hreverse⟩⟩

end FourApproved

end IeumChain
