import IeumChain.QuorumWords
import IeumChain.ValidatorPolicy

/-!
# One key, one vote

A validator is named by its public key in hexadecimal, and names are compared as texts. The
genesis configuration and the selection of validators both accept the same key in different
spellings, each of which votes with a power of its own. Every key votes once exactly when no
two names of the list differ in the case of letters only.
-/
namespace IeumChain

open ByteCodec Text Outcome MachineWords FiniteMap VoteTally

/-- What the two sources of validator lists make sure of. -/
structure NamesKeys (validators : List Validator) : Prop where
  distinct : (validators.map (·.id)).Nodup
  keys : ∀ v ∈ validators, (hexDecode v.id).map List.length = some 32
  positive : ∀ v ∈ validators, 0 < v.votingPower

/-! ## Where validator lists come from -/

theorem checkValidators_eq_ok {validators : List Validator} {ids : List String} :
    (∃ seen, validators.foldlM GenesisConfig.checkValidator ids = .ok seen) ↔
      NamesKeys validators ∧ ∀ v ∈ validators, v.id ∉ ids := by
  induction validators generalizing ids with
  | nil => exact ⟨fun _ => ⟨⟨List.nodup_nil, by simp, by simp⟩, by simp⟩, fun _ => ⟨ids, rfl⟩⟩
  | cons v rest ih =>
      have hstep : (∃ seen, (v :: rest).foldlM GenesisConfig.checkValidator ids = .ok seen) ↔
          (0 < v.votingPower ∧ (hexDecode v.id).map List.length = some 32 ∧ v.id ∉ ids) ∧
            ∃ seen, rest.foldlM GenesisConfig.checkValidator (v.id :: ids) = .ok seen := by
        simp only [List.foldlM_cons, GenesisConfig.checkValidator, bind_eq_ok, reject_eq_ok,
          pure_eq_ok, not_or, not_not, Nat.pos_iff_ne_zero]
        constructor
        · rintro ⟨seen, _, ⟨-, hchecks, rfl⟩, hrest⟩
          exact ⟨hchecks, seen, hrest⟩
        · rintro ⟨hchecks, seen, hrest⟩
          exact ⟨seen, _, ⟨(), hchecks, rfl⟩, hrest⟩
      rw [hstep, ih]
      constructor
      · rintro ⟨⟨hpositive, hkey, hnew⟩, ⟨hdistinct, hkeys, hpowers⟩, hfresh⟩
        refine ⟨⟨?_, List.forall_mem_cons.2 ⟨hkey, hkeys⟩,
          List.forall_mem_cons.2 ⟨hpositive, hpowers⟩⟩, ?_⟩
        · rw [List.map_cons, List.nodup_cons]
          refine ⟨fun hmem => ?_, hdistinct⟩
          obtain ⟨u, hu, hid⟩ := List.mem_map.1 hmem
          exact hfresh u hu (hid ▸ List.mem_cons_self ..)
        · exact List.forall_mem_cons.2
            ⟨hnew, fun u hu hmem => hfresh u hu (List.mem_cons_of_mem _ hmem)⟩
      · rintro ⟨⟨hdistinct, hkeys, hpowers⟩, hfresh⟩
        rw [List.map_cons, List.nodup_cons] at hdistinct
        rw [List.forall_mem_cons] at hkeys hpowers hfresh
        refine ⟨⟨hpowers.1, hkeys.1, hfresh.1⟩, ⟨hdistinct.2, hkeys.2, hpowers.2⟩, ?_⟩
        intro u hu hmem
        rcases List.mem_cons.1 hmem with hid | hmem
        · exact hdistinct.1 (hid ▸ List.mem_map_of_mem hu)
        · exact hfresh.2 u hu hmem

theorem namesKeys_of_validate {g : GenesisConfig} (h : g.validate = .ok ()) :
    NamesKeys g.validators := by
  simp only [GenesisConfig.validate, check_bind_eq_ok] at h
  simp only [bind_eq_ok] at h
  obtain ⟨-, -, balances, -, -, -, locked, -, -, -, seen, hseen, -⟩ := h
  exact (checkValidators_eq_ok.1 ⟨seen, hseen⟩).1

theorem eligibleLoop_spec {p : ValidatorPolicy} {balances : HashMap Address ℕ} {supply : ℕ}
    {ids accounts : List String} {candidates : List ValidatorCandidate} {found : List Eligible}
    (h : p.eligibleLoop balances supply ids accounts candidates = .ok found) :
    (found.map (·.candidate.validatorId)).Nodup ∧
      ∀ e ∈ found, (hexDecode e.candidate.validatorId).map List.length = some 32 ∧
        e.candidate.validatorId ∉ ids := by
  induction candidates generalizing ids accounts found with
  | nil =>
      cases h
      exact ⟨List.nodup_nil, List.forall_mem_nil _⟩
  | cons candidate rest ih =>
      simp only [ValidatorPolicy.eligibleLoop, check_bind_eq_ok, reject_eq_ok] at h
      simp only [bind_eq_ok, pure_eq_ok] at h
      obtain ⟨hcandidate, hnew, -, others, hothers, rfl⟩ := h
      obtain ⟨hdistinct, hfound⟩ := ih hothers
      have hlater : ∀ e ∈ others, (hexDecode e.candidate.validatorId).map List.length = some 32 ∧
          e.candidate.validatorId ∉ ids := fun e he =>
        ⟨(hfound e he).1, fun hmem => (hfound e he).2 (List.mem_cons_of_mem _ hmem)⟩
      split_ifs
      · exact ⟨hdistinct, hlater⟩
      · simp only [validateCandidate, check_bind_eq_ok, reject_eq_ok, not_not] at hcandidate
        refine ⟨?_, List.forall_mem_cons.2 ⟨⟨hcandidate.1, hnew⟩, hlater⟩⟩
        rw [List.map_cons, List.nodup_cons]
        refine ⟨fun hmem => ?_, hdistinct⟩
        obtain ⟨e, he, hid⟩ := List.mem_map.1 hmem
        refine (hfound e he).2 ?_
        rw [hid]
        exact List.mem_cons_self ..

theorem votingPower_pos (stake supply : ℕ) : 0 < votingPower stake supply :=
  lt_min (lt_max_of_lt_right Nat.one_pos) (by decide)

theorem namesKeys_of_select {p : ValidatorPolicy} {candidates : List ValidatorCandidate}
    {balances : HashMap Address ℕ} {supply : ℕ} {selected : List SelectedValidator}
    (h : p.select candidates balances supply = .ok selected) :
    NamesKeys (selected.map (·.validator)) := by
  simp only [ValidatorPolicy.select, check_bind_eq_ok] at h
  simp only [bind_eq_ok, pure_eq_ok] at h
  obtain ⟨-, -, found, hfound, -, -, rfl⟩ := h
  obtain ⟨hdistinct, hkeys⟩ := eligibleLoop_spec hfound
  set routed := found.filter _ with hrouted
  set listed := routed.map _ with hlisted
  have hids : listed.map (·.validator.id) = routed.map (·.candidate.validatorId) := by
    rw [hlisted, List.map_map]
    rfl
  have hmem : ∀ s ∈ (listed.insertionSort SelectedValidator.order).take p.maxValidators,
      s ∈ listed := fun s hs =>
    (List.perm_insertionSort _ _).subset (List.take_subset _ _ hs)
  refine ⟨?_, ?_, ?_⟩
  · rw [List.map_map]
    have hsorted : ((listed.insertionSort SelectedValidator.order).map (·.validator.id)).Nodup := by
      rw [((List.perm_insertionSort SelectedValidator.order listed).map _).nodup_iff, hids]
      exact hdistinct.sublist (List.filter_sublist.map _)
    exact hsorted.sublist ((List.take_sublist _ _).map _)
  · intro v hv
    obtain ⟨s, hs, rfl⟩ := List.mem_map.1 hv
    obtain ⟨e, he, rfl⟩ := List.mem_map.1 (hmem s hs)
    exact (hkeys e (List.mem_filter.1 he).1).1
  · intro v hv
    obtain ⟨s, hs, rfl⟩ := List.mem_map.1 hv
    obtain ⟨e, he, rfl⟩ := List.mem_map.1 (hmem s hs)
    exact votingPower_pos _ _

/-- A validator list of the configuration or of the selection. -/
def Admitted (validators : List Validator) : Prop :=
  (∃ g : GenesisConfig, g.validate = .ok () ∧ g.validators = validators) ∨
    ∃ (p : ValidatorPolicy) (candidates : List ValidatorCandidate)
      (balances : HashMap Address ℕ) (supply : ℕ) (selected : List SelectedValidator),
      p.select candidates balances supply = .ok selected ∧ selected.map (·.validator) = validators

theorem Admitted.namesKeys {validators : List Validator} (h : Admitted validators) :
    NamesKeys validators := by
  rcases h with ⟨g, hvalid, rfl⟩ | ⟨p, candidates, balances, supply, selected, hselect, rfl⟩
  · exact namesKeys_of_validate hvalid
  · exact namesKeys_of_select hselect

/-! ## The power of a key -/

section
variable {validators : List Validator}

/-- Keys repeat exactly where names do up to case. -/
theorem NamesKeys.keys_nodup_iff (h : NamesKeys validators) :
    (validators.map fun v => hexDecode v.id).Nodup ↔
      (validators.map fun v => lowercase v.id).Nodup := by
  have hdecoded : ∀ v ∈ validators, ∃ key, hexDecode v.id = some key := by
    intro v hv
    obtain ⟨key, hkey, -⟩ := Option.map_eq_some_iff.1 (h.keys v hv)
    exact ⟨key, hkey⟩
  have hlist : validators.Nodup := h.distinct.of_map _
  rw [List.nodup_map_iff_inj_on hlist, List.nodup_map_iff_inj_on hlist]
  refine forall₂_congr fun u hu => forall₂_congr fun v hv => imp_congr_left ?_
  obtain ⟨a, ha⟩ := hdecoded u hu
  obtain ⟨b, hb⟩ := hdecoded v hv
  rw [ha, hb, Option.some.injEq]
  exact hexDecode_eq_iff ha hb

theorem registered_of_lookup {c : BftConsensus} (hnew : BftConsensus.new validators = .ok c)
    {id : String} (h : (validatorPowers validators).lookup id ≠ none) :
    id ∈ validators.map (·.id) := by
  simp only [BftConsensus.new, check_bind_eq_ok] at hnew
  simp only [bind_eq_ok] at hnew
  obtain ⟨-, map, hmap, -⟩ := hnew
  obtain ⟨hfold, -, -, -, hother, -⟩ := BftConsensus.newLoop_spec hmap
  by_contra hid
  have hpowers : map = validatorPowers validators := hfold
  rw [← hpowers, hother id hid] at h
  exact h (AList.lookup_empty id)

/-- Where keys do not repeat, names of one key have no more than the power of its validator. -/
theorem sum_powers_of_one_key (h : NamesKeys validators)
    (hkeys : (validators.map fun v => hexDecode v.id).Nodup) {v : Validator} (hv : v ∈ validators)
    {ids : Finset String} (hids : ∀ id ∈ ids, hexDecode id = hexDecode v.id) :
    ∑ id ∈ ids, ((validatorPowers validators).lookup id).getD 0 ≤ v.votingPower := by
  obtain ⟨c, hnew⟩ := BftConsensus.new_ok (List.ne_nil_of_mem hv)
    (fun u hu => (h.positive u hu).ne') h.distinct
  obtain ⟨-, -, hlookup, -, -⟩ := BftConsensus.new_spec hnew
  have honly : ∀ id ∈ ids, ((validatorPowers validators).lookup id).getD 0 ≠ 0 →
      id ∈ ({v.id} : Finset String) := by
    intro id hid hpower
    have hknown : (validatorPowers validators).lookup id ≠ none := by
      intro hnone
      rw [hnone] at hpower
      exact hpower rfl
    obtain ⟨u, hu, rfl⟩ := List.mem_map.1 (registered_of_lookup hnew hknown)
    obtain rfl := List.inj_on_of_nodup_map hkeys hu hv (hids _ hid)
    exact Finset.mem_singleton_self _
  have hsum := Finset.sum_le_sum_of_ne_zero honly
  rwa [Finset.sum_singleton, hlookup v hv, Option.getD_some] at hsum

/-- The power of the names of other keys. -/
def powerBeside (validators : List Validator) (ids : Finset String) (name : String) : ℕ :=
  ∑ id ∈ ids.filter fun id => hexDecode id ≠ hexDecode name,
    ((validatorPowers validators).lookup id).getD 0

/-- Where keys do not repeat, the names of one key add to a set no more than the power of its
validator. -/
theorem sum_powers_le_beside (h : NamesKeys validators)
    (hkeys : (validators.map fun v => hexDecode v.id).Nodup) {v : Validator} (hv : v ∈ validators)
    (ids : Finset String) : ∑ id ∈ ids, ((validatorPowers validators).lookup id).getD 0 ≤
      v.votingPower + powerBeside validators ids v.id := by
  have hown : ∀ id ∈ ids.filter fun id => hexDecode id = hexDecode v.id,
      hexDecode id = hexDecode v.id := fun id hid => (Finset.mem_filter.1 hid).2
  rw [powerBeside, ← Finset.sum_filter_add_sum_filter_not ids fun id =>
    hexDecode id = hexDecode v.id]
  exact Nat.add_le_add_right (sum_powers_of_one_key h hkeys hv hown) _

/-- For an admitted list: each key is in it once, and the votes under names of one key add no
more than the power of one validator to a tally of the machine and to a certificate, exactly
when no two names of the list are equal up to the case of letters. -/
theorem one_vote_per_key_iff [Crypto] (hadmitted : Admitted validators) :
    ((validators.map fun v => hexDecode v.id).Nodup ∧
        (∀ v ∈ validators, ∀ (c : BftConsensus) voteType blockHash,
          c.validators = validatorPowers validators →
          c.votePower voteType blockHash ≤ v.votingPower +
            powerBeside validators (getD c.votes (voteType, blockHash) ∅) v.id) ∧
        ∀ v ∈ validators, ∀ (certificate : FinalityCertificate) power,
          count (certificate.rule validators) certificate.precommits = .ok power →
          power ≤ v.votingPower + powerBeside validators
            (certificate.precommits.map (·.validatorId)).toFinset v.id) ↔
      (validators.map fun v => lowercase v.id).Nodup := by
  have hnames := hadmitted.namesKeys
  rw [← hnames.keys_nodup_iff]
  refine ⟨fun h => h.1, fun hkeys => ⟨hkeys, ?_, ?_⟩⟩
  · intro v hv c voteType blockHash hpowers
    rw [BftConsensus.votePower, hpowers]
    exact (Nat.mod_le _ _).trans (sum_powers_le_beside hnames hkeys hv _)
  · intro v hv certificate power hcount
    obtain ⟨ids, rfl, hvotes⟩ := count_sound _ hcount
    have hvoters : ids ⊆ (certificate.precommits.map (·.validatorId)).toFinset := by
      intro id hid
      obtain ⟨m, hm, rfl, -⟩ := hvotes id hid
      exact List.mem_toFinset.2 (List.mem_map_of_mem hm)
    refine (sum_powers_le_beside hnames hkeys hv ids).trans (Nat.add_le_add_left ?_ _)
    exact Finset.sum_le_sum_of_subset (Finset.filter_subset_filter _ hvoters)

end

namespace Spelled

attribute [local instance] Lone.agreementCrypto

/-- A configuration without balances. -/
def configured (validators : List Validator) : GenesisConfig :=
  { chainId := 21005, networkName := "ieum-ci", genesisTime := 0, maxSupply := 1
    initialBalances := [], lockedAddresses := [], validators, maxBlockBytes := 1
    maxActiveBlockBytes := 1 }

theorem validate_configured {validators : List Validator} (h : NamesKeys validators)
    (hfour : 4 ≤ validators.length) : (configured validators).validate = .ok () := by
  obtain ⟨seen, hseen⟩ := checkValidators_eq_ok.2 ⟨h, fun v _ => List.not_mem_nil⟩
  simp only [GenesisConfig.validate, check_bind_eq_ok, reject_eq_ok]
  simp only [bind_eq_ok, reject_eq_ok]
  exact ⟨Nat.succ_ne_zero _, Nat.one_ne_zero, ([], 0), rfl, (), Nat.not_lt_zero 1, [], rfl, (),
    not_lt.2 hfour, seen, hseen, (), by simp [configured], by simp [configured]⟩

/-- The key of 32 bytes `aa` with the given spelling of its first byte. -/
def spelling (first second : Char) : String :=
  String.ofList (first :: second :: List.replicate 62 'a')

def spellings : List (Char × Char) := [('a', 'a'), ('a', 'A'), ('A', 'a'), ('A', 'A')]

def members : List Validator := spellings.map fun s => ⟨spelling s.1 s.2, 1⟩

theorem hexDecode_spelling {s : Char × Char} (hs : s ∈ spellings) :
    hexDecode (spelling s.1 s.2) = some (StandIn.key 170) := by
  have hall : ∀ s ∈ spellings, hexDecodeChars (s.1 :: s.2 :: List.replicate 62 'a') =
      some (List.replicate 32 (UInt8.ofNat 170)) := by decide
  rw [hexDecode, spelling, String.toList_ofList, hall s hs]
  rfl

theorem namesKeys_members : NamesKeys members where
  distinct := by
    rw [members, List.map_map]
    refine List.Nodup.map_on ?_ (by decide)
    intro s _ t _ heq
    have hchars := String.ofList_injective heq
    rw [List.cons.injEq, List.cons.injEq] at hchars
    exact Prod.ext hchars.1 hchars.2.1
  keys v hv := by
    obtain ⟨s, hs, rfl⟩ := List.mem_map.1 hv
    rw [hexDecode_spelling hs]
    rfl
  positive v hv := by
    obtain ⟨s, -, rfl⟩ := List.mem_map.1 hv
    exact Nat.one_pos

/-- The precommit of the one key under one of its names. -/
def precommit (s : Char × Char) : ConsensusMessage :=
  { height := 1, round := 0, validatorId := spelling s.1 s.2, voteType := .precommit
    blockHash := Lone.block.hash
    signature := StandIn.sign 170 (ConsensusMessage.bytesToSign 1 0 (spelling s.1 s.2) .precommit
      Lone.block.hash) }

theorem verify_precommit {s : Char × Char} (hs : s ∈ spellings) :
    (precommit s).verify = .ok () := by
  refine verifySignature_eq_ok.2 ⟨StandIn.key 170, StandIn.key 170 ++ StandIn.digest _,
    hexDecode_spelling hs, ?_, hexDecode_hexEncode _, ?_, rfl, decide_eq_true rfl⟩
  · simp [StandIn.key]
  · simp [StandIn.key, StandIn.length_digest]

def certificate : FinalityCertificate :=
  { block := Lone.block, round := 0, precommits := spellings.map precommit }

/-- Four names of one key are four validators, and this key alone finalizes a block. -/
theorem one_key_finalizes :
    (configured members).validate = .ok () ∧ certificate.verify members = .ok () ∧
      (∀ m ∈ certificate.precommits, hexDecode m.validatorId = some (StandIn.key 170)) ∧
      ¬(members.map fun v => hexDecode v.id).Nodup := by
  obtain ⟨c, hnew⟩ := BftConsensus.new_ok (by decide : members ≠ [])
    (fun v hv => (namesKeys_members.positive v hv).ne') namesKeys_members.distinct
  have hwords : ∀ v ∈ members, v.votingPower ≤ u64Max := by
    intro v hv
    obtain ⟨s, -, rfl⟩ := List.mem_map.1 hv
    exact (by decide : 1 ≤ u64Max)
  have hvotes : VotesOf members 1 0 .precommit Lone.block.hash (spellings.map precommit) := by
    refine ⟨.refl _, ?_, ?_⟩
    · intro m hm
      obtain ⟨s, -, rfl⟩ := List.mem_map.1 hm
      exact decide_eq_true ⟨rfl, rfl, rfl, rfl⟩
    · intro m hm
      obtain ⟨s, hs, rfl⟩ := List.mem_map.1 hm
      exact verify_precommit hs
  have hsealed : Lone.block.hash = Lone.block.calculateHash := Block.new_hash ..
  refine ⟨validate_configured namesKeys_members (by decide), ?_, ?_, ?_⟩
  · have hverify : certificate.verify members = .ok () ↔
        2 * listedPower members < 3 * listedPower members :=
      certificate_iff hnew (.refl _) hwords (by decide) hsealed hvotes
    exact hverify.2 (by decide)
  · intro m hm
    obtain ⟨s, hs, rfl⟩ := List.mem_map.1 hm
    exact hexDecode_spelling hs
  · have hkeys : members.map (fun v => hexDecode v.id) =
        List.replicate 4 (some (StandIn.key 170)) := by
      rw [members, List.map_map]
      exact List.map_congr_left fun s hs => hexDecode_spelling hs
    rw [hkeys]
    intro hnodup
    have := List.nodup_replicate.1 hnodup
    omega

/-- Four keys in lower case. -/
theorem one_vote_per_key_iff_quartet : Admitted Quartet.members ∧
    (Quartet.members.map fun v => hexDecode v.id).Nodup := by
  obtain ⟨rt, h⟩ := Quartet.started_ok
  have hdecode : ∀ v ∈ Quartet.members, ∃ n, v.id = StandIn.address n ∧ v.votingPower = 1 := by
    intro v hv
    obtain ⟨n, -, rfl⟩ := List.mem_map.1 hv
    exact ⟨n, rfl, rfl⟩
  have hnames : NamesKeys Quartet.members := by
    refine ⟨ConsensusRuntime.nodup_of_prepared (Quartet.prepared h), fun v hv => ?_, fun v hv => ?_⟩
    · obtain ⟨n, hid, -⟩ := hdecode v hv
      rw [hid, StandIn.address, hexDecode_hexEncode]
      rfl
    · obtain ⟨n, -, hpower⟩ := hdecode v hv
      rw [hpower]
      exact Nat.one_pos
  have hfour : 4 ≤ Quartet.members.length := by
    rw [Quartet.members, List.length_map]
    exact le_rfl
  have hadmitted : Admitted Quartet.members :=
    .inl ⟨configured Quartet.members, validate_configured hnames hfour, rfl⟩
  have hlower : (Quartet.members.map fun v => lowercase v.id) = Quartet.members.map (·.id) := by
    refine List.map_congr_left fun v hv => ?_
    obtain ⟨n, hid, -⟩ := hdecode v hv
    rw [hid]
    exact lowercase_of_hexDecode (hexDecode_hexEncode _)
  refine ⟨hadmitted, ((one_vote_per_key_iff hadmitted).2 ?_).1⟩
  rw [hlower]
  exact hnames.distinct

end Spelled

end IeumChain
