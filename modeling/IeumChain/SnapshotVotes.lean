import IeumChain.QuorumWords
import IeumChain.Snapshot
import IeumChain.StandIn

/-!
# Collecting votes for snapshots

A node gathers signed attestations by height, block hash and state root, one of each signer,
and tries after each whether they make a certificate. Whoever holds a key can sign one, and the
certificate refuses the whole list for one signer who is no validator. The signers of a list that
is tried stay in it, so such a signer blocks the key until its votes are dropped.
-/
namespace IeumChain

open ByteCodec Text Outcome MachineWords FiniteMap VoteTally

abbrev SnapshotKey := ℕ × String × String

def SnapshotAttestation.key (a : SnapshotAttestation) : SnapshotKey :=
  (a.height, a.blockHash, a.stateRoot)

def SnapshotCertificate.fromAttestations (attestations : List SnapshotAttestation) :
    Except String SnapshotCertificate := do
  let first ← okOr attestations.head? "snapshot 인증 투표가 없습니다."
  reject (∃ vote ∈ attestations, vote.height ≠ first.height ∨ vote.blockHash ≠ first.blockHash ∨
    vote.stateRoot ≠ first.stateRoot)
    "서로 다른 snapshot 투표를 하나의 인증서로 묶을 수 없습니다."
  pure ⟨first.height, first.blockHash, first.stateRoot, attestations⟩

/-- The latest snapshot of the archive, and its answer to writing a certified one. -/
structure SnapshotShelf where
  loadLatestSnapshot : Except String (Option StateSnapshot)
  persistCertifiedSnapshot : StateSnapshot → SnapshotCertificate → Except String Unit

inductive AttestationOutcome
  | refused (error : String)
  | certified (height : ℕ)
  | waiting
  | rejected (error : String)
  deriving Repr, DecidableEq

/-- The votes of the key of an attestation, once the attestation is among them. -/
def collected (votes : HashMap SnapshotKey (List SnapshotAttestation)) (a : SnapshotAttestation) :
    List SnapshotAttestation :=
  let known := getD votes a.key []
  if ∃ vote ∈ known, vote.validatorId = a.validatorId then known else known ++ [a]

section
variable [Crypto]

def certifySnapshot (shelf : SnapshotShelf) (validators : List Validator)
    (certificate : SnapshotCertificate) : Except String Unit := do
  let latest ← shelf.loadLatestSnapshot
  let snapshot ← okOr latest "인증할 로컬 snapshot이 없습니다."
  certificate.verifySnapshot snapshot validators
  shelf.persistCertifiedSnapshot snapshot certificate

/-- An error ends the process. The sender loses 100 points when the attestation is refused or
the certificate rejected. -/
def onSnapshotAttestation (shelf : SnapshotShelf) (validators : List Validator)
    (votes : HashMap SnapshotKey (List SnapshotAttestation)) (a : SnapshotAttestation) :
    Except String (HashMap SnapshotKey (List SnapshotAttestation) × AttestationOutcome) :=
  match a.verify with
  | .error e => .ok (votes, .refused e)
  | .ok () => do
      let certificate ← SnapshotCertificate.fromAttestations (collected votes a)
      let votes := votes.insert a.key (collected votes a)
      match certificate.verify validators with
      | .ok () => do
          certifySnapshot shelf validators certificate
          pure (retain (fun key => certificate.height < key.1) votes,
            .certified certificate.height)
      | .error e =>
          if "2/3 초과".toList <:+: e.toList then .ok (votes, .waiting)
          else .ok (votes, .rejected e)

end

/-- The votes, and the correctly signed attestations that have come in for a key since its votes
were last dropped. -/
structure SnapshotCollection where
  votes : HashMap SnapshotKey (List SnapshotAttestation)
  arrived : List SnapshotAttestation

namespace SnapshotCollection

def empty : SnapshotCollection := ⟨∅, []⟩

/-- An attestation that has been received, while the archive answers in some way. -/
structure Received where
  shelf : SnapshotShelf
  attestation : SnapshotAttestation

variable [Crypto] (validators : List Validator)

def step (c : SnapshotCollection) (r : Received) : Except String SnapshotCollection := do
  let (votes, outcome) ← onSnapshotAttestation r.shelf validators c.votes r.attestation
  match outcome with
  | .refused _ => pure ⟨votes, c.arrived⟩
  | .certified height =>
      pure ⟨votes, (c.arrived ++ [r.attestation]).filter fun a => height < a.height⟩
  | .waiting | .rejected _ => pure ⟨votes, c.arrived ++ [r.attestation]⟩

def run (c : SnapshotCollection) (received : List Received) : Except String SnapshotCollection :=
  received.foldlM (step validators) c

end SnapshotCollection

/-! ## What is collected -/

section
variable [Crypto]

/-- The votes of a key are correctly signed votes for it, one of each signer that has come in. -/
structure KeptVotes (arrived : List SnapshotAttestation) (key : SnapshotKey)
    (votes : List SnapshotAttestation) : Prop where
  keyed : ∀ vote ∈ votes, vote.key = key
  signed : ∀ vote ∈ votes, vote.verify = .ok ()
  distinct : (votes.map (·.validatorId)).Nodup
  signers : ∀ id, id ∈ votes.map (·.validatorId) ↔
    ∃ a ∈ arrived, a.key = key ∧ a.validatorId = id

variable {arrived : List SnapshotAttestation} {key : SnapshotKey}
  {votes : List SnapshotAttestation} {a : SnapshotAttestation}

theorem keptVotes_nil (h : ∀ a ∈ arrived, a.key ≠ key) : KeptVotes arrived key [] :=
  ⟨nofun, nofun, List.nodup_nil, fun _ => ⟨nofun, fun ⟨a, ha, hkey, _⟩ => absurd hkey (h a ha)⟩⟩

omit [Crypto] in
/-- The signer joins those that have come in for the key. -/
theorem exists_arrived_concat {id : String} :
    (∃ b ∈ arrived ++ [a], b.key = a.key ∧ b.validatorId = id) ↔
      (∃ b ∈ arrived, b.key = a.key ∧ b.validatorId = id) ∨ a.validatorId = id := by
  constructor
  · rintro ⟨b, hb, hkey, hid⟩
    rcases List.mem_append.1 hb with hb | hb
    · exact .inl ⟨b, hb, hkey, hid⟩
    · rw [List.mem_singleton.1 hb] at hid
      exact .inr hid
  · rintro (⟨b, hb, hkey, hid⟩ | hid)
    · exact ⟨b, List.mem_append_left _ hb, hkey, hid⟩
    · exact ⟨a, by simp, rfl, hid⟩

theorem KeptVotes.collected {map : HashMap SnapshotKey (List SnapshotAttestation)}
    (h : KeptVotes arrived a.key (getD map a.key [])) (hsigned : a.verify = .ok ()) :
    KeptVotes (arrived ++ [a]) a.key (collected map a) := by
  unfold IeumChain.collected
  dsimp only
  split_ifs with hknown
  · refine ⟨h.keyed, h.signed, h.distinct, fun id => ?_⟩
    rw [exists_arrived_concat, ← h.signers, iff_self_or]
    rintro rfl
    obtain ⟨vote, hvote, hid⟩ := hknown
    exact List.mem_map.2 ⟨vote, hvote, hid⟩
  · refine ⟨?_, ?_, ?_, fun id => ?_⟩
    · exact List.forall_mem_append.2 ⟨h.keyed, by simp⟩
    · exact List.forall_mem_append.2 ⟨h.signed, by simpa using hsigned⟩
    · rw [List.map_append, List.map_singleton, List.nodup_append']
      refine ⟨h.distinct, List.nodup_singleton _, ?_⟩
      rw [List.disjoint_singleton, List.mem_map]
      exact hknown
    · rw [exists_arrived_concat, ← h.signers, List.map_append, List.mem_append,
        List.map_singleton, List.mem_singleton, eq_comm (a := id) (b := a.validatorId)]

theorem KeptVotes.other (h : KeptVotes arrived key votes) (hkey : key ≠ a.key) :
    KeptVotes (arrived ++ [a]) key votes := by
  refine ⟨h.keyed, h.signed, h.distinct, fun id => (h.signers id).trans ⟨?_, ?_⟩⟩
  · rintro ⟨b, hb, hb'⟩
    exact ⟨b, List.mem_append_left _ hb, hb'⟩
  · rintro ⟨b, hb, hbkey, hid⟩
    rcases List.mem_append.1 hb with hb | hb
    · exact ⟨b, hb, hbkey, hid⟩
    · rw [List.mem_singleton.1 hb] at hbkey
      exact absurd hbkey.symm hkey

/-- Dropping what is no higher than a height does not touch the higher keys. -/
theorem KeptVotes.filter {height : ℕ} (h : KeptVotes arrived key votes) (hheight : height < key.1) :
    KeptVotes (arrived.filter fun a => height < a.height) key votes := by
  refine ⟨h.keyed, h.signed, h.distinct, fun id => (h.signers id).trans ?_⟩
  refine exists_congr fun b => ⟨?_, ?_⟩
  · rintro ⟨hb, hbkey, hid⟩
    refine ⟨List.mem_filter.2 ⟨hb, decide_eq_true ?_⟩, hbkey, hid⟩
    rw [← hbkey] at hheight
    exact hheight
  · rintro ⟨hb, hb'⟩
    exact ⟨(List.mem_filter.1 hb).1, hb'⟩

theorem keptVotes_dropped {height : ℕ} (hheight : key.1 ≤ height) :
    KeptVotes (arrived.filter fun a => height < a.height) key [] := by
  refine keptVotes_nil fun b hb hbkey => ?_
  have hhigher : height < b.height := of_decide_eq_true (List.mem_filter.1 hb).2
  rw [← hbkey] at hheight
  exact absurd hheight (Nat.not_le.2 hhigher)

omit [Crypto] in
theorem fromAttestations_of_keyed (hne : votes ≠ []) (hkeyed : ∀ vote ∈ votes, vote.key = key) :
    SnapshotCertificate.fromAttestations votes = .ok ⟨key.1, key.2.1, key.2.2, votes⟩ := by
  obtain ⟨first, rest, rfl⟩ := List.exists_cons_of_ne_nil hne
  obtain rfl := hkeyed first List.mem_cons_self
  rw [SnapshotCertificate.fromAttestations, List.head?_cons, bind_eq_ok]
  refine ⟨first, rfl, ?_⟩
  rw [check_bind_eq_ok, reject_eq_ok]
  refine ⟨?_, rfl⟩
  rintro ⟨vote, hvote, hdiffers⟩
  have hvote' := hkeyed vote hvote
  rw [SnapshotAttestation.key, SnapshotAttestation.key, Prod.mk.injEq, Prod.mk.injEq] at hvote'
  tauto

omit [Crypto] in
theorem collected_ne_nil (map : HashMap SnapshotKey (List SnapshotAttestation))
    (a : SnapshotAttestation) : collected map a ≠ [] := by
  unfold collected
  dsimp only
  split_ifs with hknown
  · obtain ⟨vote, hvote, -⟩ := hknown
    exact List.ne_nil_of_mem hvote
  · simp

namespace SnapshotCollection

variable {validators : List Validator} {c c' : SnapshotCollection}

def Sound (c : SnapshotCollection) : Prop :=
  ∀ key, KeptVotes c.arrived key (getD c.votes key [])

theorem sound_empty : empty.Sound := fun _ => keptVotes_nil nofun

/-- The attestation is filed under its key, the other votes stay. -/
theorem Sound.insert (h : c.Sound) {a : SnapshotAttestation} (hsigned : a.verify = .ok ()) :
    Sound ⟨c.votes.insert a.key (collected c.votes a), c.arrived ++ [a]⟩ := by
  intro key
  by_cases hkey : key = a.key
  · subst hkey
    rw [getD_insert_self]
    exact (h a.key).collected hsigned
  · rw [getD_insert_ne _ hkey]
    exact (h key).other hkey

theorem Sound.drop (h : c.Sound) (height : ℕ) :
    Sound ⟨retain (fun key => height < key.1) c.votes,
      c.arrived.filter fun a => height < a.height⟩ := by
  intro key
  by_cases hheight : height < key.1
  · dsimp only
    rw [getD_retain (p := fun key : SnapshotKey => height < key.1) (decide_eq_true hheight)]
    exact (h key).filter hheight
  · dsimp only
    rw [getD_retain_of_not (p := fun key : SnapshotKey => height < key.1)
      (decide_eq_false hheight)]
    exact keptVotes_dropped (Nat.not_lt.1 hheight)

theorem Sound.step {r : Received} (h : c.Sound) (hstep : c.step validators r = .ok c') :
    c'.Sound := by
  obtain ⟨shelf, a⟩ := r
  rw [SnapshotCollection.step, bind_eq_ok] at hstep
  obtain ⟨⟨votes, outcome⟩, hreceive, hstep⟩ := hstep
  unfold onSnapshotAttestation at hreceive
  cases hsigned : a.verify with
  | error e =>
      simp only [hsigned, Except.ok.injEq, Prod.mk.injEq] at hreceive
      obtain ⟨rfl, rfl⟩ := hreceive
      cases hstep
      exact h
  | ok u =>
      simp only [hsigned, bind_eq_ok] at hreceive
      obtain ⟨certificate, -, hreceive⟩ := hreceive
      have hinsert := h.insert hsigned
      split at hreceive
      · rw [check_bind_eq_ok] at hreceive
        obtain ⟨rfl, rfl⟩ := Prod.mk.inj (Except.ok.inj hreceive.2)
        cases hstep
        exact hinsert.drop certificate.height
      · split_ifs at hreceive
        · obtain ⟨rfl, rfl⟩ := Prod.mk.inj (Except.ok.inj hreceive)
          cases hstep
          exact hinsert
        · obtain ⟨rfl, rfl⟩ := Prod.mk.inj (Except.ok.inj hreceive)
          cases hstep
          exact hinsert

/-- A list that makes no certificate stays. -/
theorem step_of_not_certified {r : Received} {certificate : SnapshotCertificate}
    (hsigned : r.attestation.verify = .ok ())
    (hmake : SnapshotCertificate.fromAttestations (collected c.votes r.attestation) =
      .ok certificate) (hrefused : certificate.verify validators ≠ .ok ()) :
    c.step validators r = .ok ⟨c.votes.insert r.attestation.key (collected c.votes r.attestation),
      c.arrived ++ [r.attestation]⟩ := by
  rw [SnapshotCollection.step, bind_eq_ok]
  simp only [onSnapshotAttestation, hsigned, bind_eq_ok]
  cases hverify : certificate.verify validators with
  | ok u => exact absurd hverify hrefused
  | error e =>
      by_cases hshort : "2/3 초과".toList <:+: e.toList
      · exact ⟨_, ⟨certificate, hmake, by simp only [hverify, if_pos hshort]; rfl⟩, rfl⟩
      · exact ⟨_, ⟨certificate, hmake, by simp only [hverify, if_neg hshort]; rfl⟩, rfl⟩

theorem Sound.run {received : List Received} (h : c.Sound)
    (hrun : c.run validators received = .ok c') : c'.Sound :=
  foldlM_invariant (fun _ _ _ _ hsound hstep => hsound.step hstep) h hrun

end SnapshotCollection

/-! ## When the votes make a certificate -/

/-- The power of some identifiers; who is not listed has none. -/
def powerOfIds (validators : List Validator) (ids : Finset String) : ℕ :=
  ∑ id ∈ ids, getD (validatorPowers validators) id 0

def Registered (validators : List Validator) (id : String) : Prop := ∃ v ∈ validators, v.id = id

omit [Crypto] in
theorem isSome_power_iff {validators : List Validator} {id : String} :
    ((validatorPowers validators).lookup id).isSome = true ↔ Registered validators id := by
  rw [validatorPowers, AList.lookup_isSome, mem_collect, List.map_map, List.mem_map]
  rfl

omit [Crypto] in
theorem powerOfIds_le (validators : List Validator) (ids : Finset String) :
    powerOfIds validators ids ≤ listedPower validators := by
  have hcollected := total_collect_le (validators.map fun v => (v.id, v.votingPower))
  rw [List.map_map] at hcollected
  exact (sum_getD_le_total _ ids).trans hcollected

/-- The votes are for what the certificate says, and listed validators with more than two thirds
of the power have cast them. -/
structure SnapshotCertificate.Attested (c : SnapshotCertificate) (validators : List Validator) :
    Prop where
  keyed : ∀ vote ∈ c.attestations, vote.key = (c.height, c.blockHash, c.stateRoot)
  registered : ∀ vote ∈ c.attestations, Registered validators vote.validatorId
  exceeds : listedPower validators * 2 <
    powerOfIds validators (c.attestations.map (·.validatorId)).toFinset * 3

theorem SnapshotCertificate.accepted_iff {c : SnapshotCertificate} {validators : List Validator}
    {vote : SnapshotAttestation} :
    Accepted (c.rule validators) vote ↔ vote.key = (c.height, c.blockHash, c.stateRoot) ∧
      vote.verify = .ok () ∧ Registered validators vote.validatorId := by
  refine and_congr ?_ (and_congr Iff.rfl isSome_power_iff)
  rw [SnapshotAttestation.key, Prod.mk.injEq, Prod.mk.injEq]
  exact decide_eq_true_iff

/-- A signer whose vote is listed twice counts once. -/
theorem SnapshotCertificate.verify_eq_ok {c : SnapshotCertificate} {validators : List Validator}
    (hwords : ∀ v ∈ validators, v.votingPower ≤ u64Max) (hlength : validators.length ≤ u64Max) :
    c.verify validators = .ok () ↔
      (∀ vote ∈ c.attestations, vote.verify = .ok ()) ∧ c.Attested validators := by
  set signers := (c.attestations.map (·.validatorId)).toFinset with hsigners
  have hle := powerOfIds_le validators signers
  have hcount (hall : ∀ vote ∈ c.attestations, Accepted (c.rule validators) vote) :
      count (c.rule validators) c.attestations = .ok (powerOfIds validators signers) :=
    count_of_skips (c.rule validators) rfl hall
      (hle.trans (listedPower_le_u128Max hwords hlength))
  rw [SnapshotCertificate.verify, check_bind_eq_ok]
  simp only [bind_eq_ok, reject_eq_ok]
  constructor
  · rintro ⟨-, signedPower, hsigned, hexceeds⟩
    have hall := accepted_of_loop _ hsigned
    rw [hcount hall] at hsigned
    cases hsigned
    refine ⟨fun vote hvote => (accepted_iff.1 (hall vote hvote)).2.1, ?_, ?_, Nat.not_le.1 hexceeds⟩
    · exact fun vote hvote => (accepted_iff.1 (hall vote hvote)).1
    · exact fun vote hvote => (accepted_iff.1 (hall vote hvote)).2.2
  · rintro ⟨hsigned, hattested⟩
    have hexceeds : listedPower validators * 2 < powerOfIds validators signers * 3 :=
      hattested.exceeds
    have hall : ∀ vote ∈ c.attestations, Accepted (c.rule validators) vote := fun vote hvote =>
      accepted_iff.2 ⟨hattested.keyed vote hvote, hsigned vote hvote,
        hattested.registered vote hvote⟩
    exact ⟨by omega, _, hcount hall, Nat.not_le.2 hexceeds⟩

/-- Votes of distinct signers with enough power make a certificate unless a signer is not listed. -/
theorem KeptVotes.verify_iff {validators : List Validator} (h : KeptVotes arrived key votes)
    (hwords : ∀ v ∈ validators, v.votingPower ≤ u64Max) (hlength : validators.length ≤ u64Max)
    (hpower : listedPower validators * 2 <
      powerOfIds validators (votes.map (·.validatorId)).toFinset * 3) :
    (SnapshotCertificate.mk key.1 key.2.1 key.2.2 votes).verify validators = .ok () ↔
      ∀ vote ∈ votes, Registered validators vote.validatorId := by
  rw [SnapshotCertificate.verify_eq_ok hwords hlength]
  constructor
  · exact fun hverified => hverified.2.registered
  · exact fun hregistered => ⟨h.signed, h.keyed, hregistered, hpower⟩

namespace SnapshotCollection

variable {validators : List Validator} {c : SnapshotCollection}

/-- Who has signed for the key of an attestation, once the attestation has come in. -/
def signers (c : SnapshotCollection) (a : SnapshotAttestation) : Finset String :=
  (((c.arrived ++ [a]).filter fun b => b.key = a.key).map (·.validatorId)).toFinset

/-- In any run: when the attestation of a validator completes more than two thirds of the power
for its key, the votes for the key make a certificate exactly when no attestation of a key that
is not listed has come in for it. -/
theorem snapshot_certified_iff (hwords : ∀ v ∈ validators, v.votingPower ≤ u64Max)
    (hlength : validators.length ≤ u64Max) {received : List Received}
    (hrun : empty.run validators received = .ok c) {a : SnapshotAttestation}
    (hsigned : a.verify = .ok ()) (hregistered : Registered validators a.validatorId)
    (hpower : listedPower validators * 2 < powerOfIds validators (c.signers a) * 3) :
    (∃ certificate,
      SnapshotCertificate.fromAttestations (collected c.votes a) = .ok certificate ∧
        certificate.verify validators = .ok ()) ↔
      ∀ b ∈ c.arrived, b.key = a.key → Registered validators b.validatorId := by
  have hkept := ((sound_empty.run hrun) a.key).collected hsigned
  have hids : ((collected c.votes a).map (·.validatorId)).toFinset = c.signers a := by
    ext id
    rw [List.mem_toFinset, hkept.signers, signers, List.mem_toFinset, List.mem_map]
    refine exists_congr fun b => ?_
    rw [List.mem_filter, decide_eq_true_iff, and_assoc]
  have hmake := fromAttestations_of_keyed (collected_ne_nil c.votes a) hkept.keyed
  simp only [hmake, Except.ok.injEq, exists_eq_left']
  rw [hkept.verify_iff hwords hlength (hids ▸ hpower)]
  constructor
  · intro hall b hb hkey
    obtain ⟨vote, hvote, hid⟩ :=
      List.mem_map.1 ((hkept.signers b.validatorId).2 ⟨b, List.mem_append_left _ hb, hkey, rfl⟩)
    exact hid ▸ hall vote hvote
  · intro hall vote hvote
    obtain ⟨b, hb, hkey, hid⟩ :=
      (hkept.signers vote.validatorId).1 (List.mem_map_of_mem hvote)
    rw [← hid]
    rcases List.mem_append.1 hb with hb | hb
    · exact hall b hb hkey
    · rw [List.mem_singleton.1 hb]
      exact hregistered

end SnapshotCollection

end

/-! ## One validator and one stranger -/

namespace Stranger

local instance strangerCrypto : Crypto := StandIn.crypto StandIn.digest

def validators : List Validator := [⟨StandIn.address 1, 1⟩]

/-- The attestation of a numbered key for one snapshot. -/
def attestation (n : ℕ) : SnapshotAttestation where
  validatorId := StandIn.address n
  height := 7
  blockHash := "block"
  stateRoot := "state"
  signature := StandIn.sign n (snapshotAttestationBytes 7 "block" "state")

def shelf : SnapshotShelf := ⟨.ok none, fun _ _ => .ok ()⟩

theorem verify_attestation (n : ℕ) : (attestation n).verify = .ok () :=
  StandIn.verifySignature_sign ..

theorem registered_self : Registered validators (attestation 1).validatorId :=
  ⟨⟨StandIn.address 1, 1⟩, List.mem_singleton_self _, rfl⟩

theorem not_registered : ¬Registered validators (attestation 2).validatorId := by
  rintro ⟨v, hv, hid⟩
  rw [List.mem_singleton.1 hv] at hid
  exact StandIn.address_ne (by decide) hid

theorem power_self : getD (validatorPowers validators) (StandIn.address 1) 0 = 1 :=
  getD_insert_self ..

theorem enough_power {ids : Finset String} (h : StandIn.address 1 ∈ ids) :
    listedPower validators * 2 < powerOfIds validators ids * 3 := by
  have hself := Finset.single_le_sum (f := fun id => getD (validatorPowers validators) id 0)
    (fun _ _ => Nat.zero_le _) h
  have hlisted : listedPower validators = 1 := rfl
  rw [power_self] at hself
  rw [hlisted, powerOfIds]
  omega

/-- The votes of the two make no certificate, nor does that of the stranger. -/
theorem verify_ne_ok {votes : List SnapshotAttestation} (h : attestation 2 ∈ votes) :
    (SnapshotCertificate.mk 7 "block" "state" votes).verify validators ≠ .ok () := by
  intro hverify
  rw [SnapshotCertificate.verify, check_bind_eq_ok, bind_eq_ok] at hverify
  obtain ⟨-, signedPower, hcount, -⟩ := hverify
  have haccepted := accepted_of_loop _ hcount _ h
  exact not_registered (isSome_power_iff.1 haccepted.2.2)

theorem collected_key (n : ℕ) (votes : List SnapshotAttestation)
    (h : ∀ vote ∈ votes, vote.key = (attestation 1).key) :
    ∀ vote ∈ votes ++ [attestation n], vote.key = (attestation 1).key :=
  List.forall_mem_append.2 ⟨h, by simp [attestation, SnapshotAttestation.key]⟩

/-- The stranger signs first. The votes of the one validator there is, who has all the power,
then make no certificate. -/
theorem stranger_blocks : ∃ c, SnapshotCollection.empty.run validators
      [⟨shelf, attestation 2⟩] = .ok c ∧
    (attestation 1).verify = .ok () ∧ Registered validators (attestation 1).validatorId ∧
    listedPower validators * 2 < powerOfIds validators (c.signers (attestation 1)) * 3 ∧
    ∀ certificate,
      SnapshotCertificate.fromAttestations (collected c.votes (attestation 1)) = .ok certificate →
        certificate.verify validators ≠ .ok () := by
  have hmake := fromAttestations_of_keyed (List.cons_ne_nil _ _) (collected_key 2 [] nofun)
  have hrefused := verify_ne_ok (List.mem_singleton_self (attestation 2))
  have hstep := SnapshotCollection.step_of_not_certified (c := .empty) (r := ⟨shelf, attestation 2⟩)
    (verify_attestation 2) hmake hrefused
  refine ⟨_, bind_eq_ok.2 ⟨_, hstep, rfl⟩, verify_attestation 1, registered_self, ?_, ?_⟩
  · refine enough_power (List.mem_toFinset.2 (List.mem_map.2 ⟨attestation 1, ?_, rfl⟩))
    exact List.mem_filter.2 ⟨by simp, decide_eq_true rfl⟩
  · intro certificate hcertificate
    have hvotes : collected (AList.insert (attestation 2).key [attestation 2] ∅)
        (attestation 1) = [attestation 2] ++ [attestation 1] := by
      have hknown : getD (AList.insert (attestation 2).key [attestation 2] ∅)
          (attestation 1).key [] = [attestation 2] := getD_insert_self ..
      have hne : (attestation 2).validatorId ≠ (attestation 1).validatorId :=
        StandIn.address_ne (by decide)
      rw [collected, hknown, if_neg]
      rintro ⟨vote, hvote, hid⟩
      rw [List.mem_singleton.1 hvote] at hid
      exact hne hid
    have hboth := fromAttestations_of_keyed (List.append_ne_nil_of_left_ne_nil
      (List.cons_ne_nil _ _) _) (collected_key 1 [attestation 2] (collected_key 2 [] nofun))
    have hmade : SnapshotCertificate.fromAttestations (collected
        (AList.insert (attestation 2).key [attestation 2] ∅) (attestation 1)) = .ok certificate :=
      hcertificate
    rw [hvotes, hboth] at hmade
    obtain rfl := Except.ok.inj hmade
    exact verify_ne_ok (List.mem_append_left _ (List.mem_singleton_self _))

/-! Two of four validators, and the stranger for another snapshot. -/

def crowd : List Validator := [1, 2, 3, 4].map fun n => ⟨StandIn.address n, 1⟩

/-- The stranger's attestation for the snapshot of the next height. -/
def elsewhere : SnapshotAttestation :=
  { attestation 5 with
    height := 8, signature := StandIn.sign 5 (snapshotAttestationBytes 8 "block" "state") }

theorem run_crowd : ∃ c, SnapshotCollection.empty.run crowd
      [⟨shelf, attestation 1⟩, ⟨shelf, elsewhere⟩, ⟨shelf, attestation 2⟩] = .ok c ∧
    c.arrived = [attestation 1, elsewhere, attestation 2] ∧
    listedPower crowd * 2 < powerOfIds crowd (c.signers (attestation 3)) * 3 := by
  decide +kernel

theorem registered_crowd {n : ℕ} (hn : n ∈ [1, 2, 3, 4]) :
    Registered crowd (attestation n).validatorId :=
  ⟨⟨StandIn.address n, 1⟩, List.mem_map_of_mem hn, rfl⟩

/-- A third signature makes a certificate: the stranger's one is not for this snapshot. -/
theorem snapshot_certified_iff_crowd : ∃ c, SnapshotCollection.empty.run crowd
      [⟨shelf, attestation 1⟩, ⟨shelf, elsewhere⟩, ⟨shelf, attestation 2⟩] = .ok c ∧
    elsewhere ∈ c.arrived ∧ ¬Registered crowd elsewhere.validatorId ∧
    ∃ certificate,
      SnapshotCertificate.fromAttestations (collected c.votes (attestation 3)) =
          .ok certificate ∧
        certificate.verify crowd = .ok () := by
  obtain ⟨c, hrun, harrived, hpower⟩ := run_crowd
  have hstranger : ¬Registered crowd elsewhere.validatorId := by
    rintro ⟨v, hv, hid⟩
    obtain ⟨n, hn, rfl⟩ := List.mem_map.1 hv
    have hkeys : ∀ n ∈ [1, 2, 3, 4], UInt8.ofNat n ≠ UInt8.ofNat 5 := by decide
    exact StandIn.address_ne (hkeys n hn) hid
  have hregistered : ∀ b ∈ c.arrived, b.key = (attestation 3).key →
      Registered crowd b.validatorId := by
    rw [harrived]
    intro b hb hkey
    rcases List.mem_cons.1 hb with rfl | hb
    · exact registered_crowd (by decide)
    rcases List.mem_cons.1 hb with rfl | hb
    · exact absurd (congrArg Prod.fst hkey) (by decide)
    · rw [List.mem_singleton.1 hb]
      exact registered_crowd (by decide)
  refine ⟨c, hrun, by simp [harrived], hstranger, ?_⟩
  exact (SnapshotCollection.snapshot_certified_iff (by decide) (by decide) hrun
    (verify_attestation 3) (registered_crowd (by decide)) hpower).2 hregistered

end Stranger

end IeumChain
