import IeumChain.BlockBinding
import IeumChain.Penalties
import IeumChain.RecordStores

/-!
# A torn last record

A crash can leave any part of the last append behind. None of the stores tolerates a part of a
record: certificates stop loading, and so do evidence and votes, unless the cut goes through a
character, in which case everything before it is lost as well. A complete record without its
line feed loads, and is lost with the next append.
-/
namespace IeumChain

open ByteCodec Text Outcome FiniteMap JsonText Journal

section
variable [Crypto]

/-! ## Certificates -/

namespace FinalityStore

/-- What loading checks: every certificate is one of these validators, and no two of them
finalize different blocks at one height. -/
structure Loadable (validators : List Validator) (certificates : List FinalityCertificate) :
    Prop where
  verified : ∀ c ∈ certificates, c.verify validators = .ok ()
  single : ∀ a ∈ certificates, ∀ b ∈ certificates,
    a.block.height = b.block.height → a.block.hash = b.block.hash

/-- The file loads and holds these certificates. -/
def Keeps (read : String → Except String FinalityCertificate) (validators : List Validator)
    (file : Bytes) (certificates : List FinalityCertificate) : Prop :=
  ∃ loaded, load read file validators = .ok loaded ∧ ∀ c ∈ certificates, c ∈ loaded

/-- The certificates survive a crash after some bytes of the next append, and what is appended
then. -/
def Tolerates (read : String → Except String FinalityCertificate) (validators : List Validator)
    (certificates : List FinalityCertificate) (torn : FinalityCertificate) (n : ℕ)
    (next : FinalityCertificate) : Prop :=
  let file := certificates.foldl append []
  let crashed := (append file torn).take (file.length + n)
  Keeps read validators crashed certificates ∧
    Keeps read validators (append crashed next) certificates

omit [Crypto] in
theorem foldl_append (certificates : List FinalityCertificate) (file : Bytes) :
    certificates.foldl append file = file ++ contents FinalityCertificate.json certificates := by
  induction certificates generalizing file with
  | nil => simp [contents]
  | cons c rest ih =>
      rw [List.foldl_cons, ih, append, contents, contents, List.flatMap_cons, List.append_assoc]

theorem foldlM_addVerified {validators : List Validator}
    {certificates initial loaded : List FinalityCertificate} :
    certificates.foldlM (addVerified validators) initial = .ok loaded ↔
      (∀ c ∈ certificates, c.verify validators = .ok ()) ∧ loaded = initial ++ certificates := by
  induction certificates generalizing initial with
  | nil =>
      rw [List.foldlM_nil, pure_eq_ok]
      simp [eq_comm]
  | cons c rest ih =>
      simp only [List.foldlM_cons, addVerified, bind_eq_ok, pure_eq_ok, List.forall_mem_cons]
      constructor
      · rintro ⟨_, ⟨_, hc, rfl⟩, hrest⟩
        obtain ⟨hall, rfl⟩ := ih.1 hrest
        exact ⟨⟨hc, hall⟩, by simp⟩
      · rintro ⟨⟨hc, hall⟩, rfl⟩
        exact ⟨_, ⟨(), hc, rfl⟩, ih.2 ⟨hall, by simp⟩⟩

/-- The blocks of two certificates do not compete. -/
def Agree (a b : FinalityCertificate) : Prop :=
  a.block.height = b.block.height → a.block.hash = b.block.hash

omit [Crypto] in
theorem checkPairs_eq_ok {certificates : List FinalityCertificate} :
    checkPairs certificates = .ok () ↔ certificates.IsChain Agree := by
  match certificates with
  | [] => simp [checkPairs]
  | [_] => simp [checkPairs]
  | a :: b :: rest =>
      rw [checkPairs, check_bind_eq_ok, reject_eq_ok, checkPairs_eq_ok, List.isChain_cons_cons]
      simp only [not_and, not_not, Agree]

omit [Crypto] in
/-- Where heights do not fall, neighbours speak for all pairs. -/
theorem isChain_agree_iff {certificates : List FinalityCertificate}
    (hsorted : certificates.Pairwise (·.block.height ≤ ·.block.height)) :
    certificates.IsChain Agree ↔ certificates.Pairwise Agree := by
  refine ⟨fun hchain => ?_, List.Pairwise.isChain⟩
  induction certificates with
  | nil => exact List.Pairwise.nil
  | cons a rest ih =>
      rw [List.pairwise_cons] at hsorted ⊢
      have hrest := ih hsorted.2 hchain.of_cons
      refine ⟨fun c hc heq => ?_, hrest⟩
      cases rest with
      | nil => cases hc
      | cons b rest =>
          have hab := (List.isChain_cons_cons.1 hchain).1
          have hbc : b.block.height = c.block.height → b.block.hash = c.block.hash := by
            rcases List.mem_cons.1 hc with rfl | hc
            · exact fun _ => rfl
            · exact (List.pairwise_cons.1 hrest).1 c hc
          have hlow := hsorted.1 b (List.mem_cons_self ..)
          have hhigh : b.block.height ≤ c.block.height := by
            rcases List.mem_cons.1 hc with rfl | hc
            · exact le_rfl
            · exact (List.pairwise_cons.1 hsorted.2).1 c hc
          exact (hab (by omega)).trans (hbc (by omega))

omit [Crypto] in
theorem checkPairs_sorted {certificates : List FinalityCertificate} :
    checkPairs (certificates.insertionSort (·.block.height ≤ ·.block.height)) = .ok () ↔
      ∀ a ∈ certificates, ∀ b ∈ certificates,
        a.block.height = b.block.height → a.block.hash = b.block.hash := by
  let byHeight : FinalityCertificate → FinalityCertificate → Prop := (·.block.height ≤ ·.block.height)
  have : Std.Total byHeight := ⟨fun a b => Nat.le_total a.block.height b.block.height⟩
  have : IsTrans FinalityCertificate byHeight := ⟨fun _ _ _ => Nat.le_trans⟩
  rw [checkPairs_eq_ok, isChain_agree_iff (List.pairwise_insertionSort byHeight certificates)]
  have : Std.Symm Agree := ⟨fun _ _ h heq => (h heq.symm).symm⟩
  constructor
  · intro hall a ha b hb
    exact hall.forall_of_forall (fun _ _ _ => rfl) ((List.mem_insertionSort byHeight).2 ha)
      ((List.mem_insertionSort byHeight).2 hb)
  · intro hall
    refine List.pairwise_of_forall_mem_list fun a ha b hb => ?_
    exact hall a ((List.mem_insertionSort byHeight).1 ha) b ((List.mem_insertionSort byHeight).1 hb)

section
variable {read : String → Except String FinalityCertificate} {validators : List Validator}
  {certificates : List FinalityCertificate} {file : Bytes}

/-- A file that is read as these certificates keeps them exactly if they can be loaded. -/
theorem keeps_iff {records : List FinalityCertificate} (hrecords : ∀ c ∈ certificates, c ∈ records)
    (hread : ∀ loaded, loadBytes read (addVerified validators)
      (fun row error => "확정 인증서 " ++ decimal row ++ "행 오류: " ++ error) [] file = .ok loaded ↔
        records.foldlM (addVerified validators) [] = .ok loaded) :
    Keeps read validators file certificates ↔ Loadable validators records := by
  simp only [Keeps, load, bind_eq_ok, hread, foldlM_addVerified, pure_eq_ok, List.nil_append]
  constructor
  · rintro ⟨_, ⟨_, ⟨hverified, rfl⟩, _, hpairs, rfl⟩, -⟩
    exact ⟨hverified, checkPairs_sorted.1 hpairs⟩
  · rintro ⟨hverified, hsingle⟩
    refine ⟨_, ⟨records, ⟨hverified, rfl⟩, (), checkPairs_sorted.2 hsingle, rfl⟩, fun c hc => ?_⟩
    exact (List.mem_insertionSort _).2 (hrecords c hc)

theorem not_keeps (hread : ∀ loaded, loadBytes read (addVerified validators)
      (fun row error => "확정 인증서 " ++ decimal row ++ "행 오류: " ++ error) [] file ≠ .ok loaded) :
    ¬Keeps read validators file certificates := by
  rintro ⟨_, hload, -⟩
  simp only [load, bind_eq_ok] at hload
  obtain ⟨loaded, hloaded, -⟩ := hload
  exact hread loaded hloaded

theorem tolerates_iff (hvalues : ReadsValues read) {torn next : FinalityCertificate}
    (hreads : ∀ c ∈ certificates ++ [torn, next], ReadsBack FinalityCertificate.json read c)
    (n : ℕ) :
    Tolerates read validators certificates torn n next ↔
      n = 0 ∧ Loadable validators (certificates ++ [next]) ∨
        (line FinalityCertificate.json torn).length ≤ n ∧
          Loadable validators (certificates ++ [torn, next]) := by
  have hobject := FinalityCertificate.isObject
  have hfile : certificates.foldl append [] = contents FinalityCertificate.json certificates := by
    rw [foldl_append, List.nil_append]
  have hcrashed : (append (certificates.foldl append []) torn).take
      ((certificates.foldl append []).length + n) =
        contents FinalityCertificate.json certificates ++
          (line FinalityCertificate.json torn).take n := by
    rw [hfile, append, List.take_length_add_append]
  have hsome : ∀ {l : List FinalityCertificate}, l ⊆ certificates ++ [torn, next] →
      ∀ c ∈ l, ReadsBack FinalityCertificate.json read c := fun hl c hc => hreads c (hl hc)
  have hstart : ∀ l : List FinalityCertificate, ∀ c ∈ certificates, c ∈ certificates ++ l :=
    fun l c hc => List.mem_append_left l hc
  dsimp only [Tolerates]
  rw [hcrashed, append]
  rcases take_line hobject torn n with ⟨rfl, hcut⟩ | ⟨hn, hlength, hcut⟩ | ⟨hn, hlength, hcut⟩ |
    ⟨hn, hlength, hcut, rest, hrest, htext⟩
  · -- Nothing of the record was written.
    have hpositive : ¬(line FinalityCertificate.json torn).length ≤ 0 := by simp [line]
    have hless : Loadable validators (certificates ++ [next]) → Loadable validators certificates :=
      fun h => ⟨fun c hc => h.verified c (hstart _ c hc),
        fun a ha b hb => h.single a (hstart _ a ha) b (hstart _ b hb)⟩
    rw [hcut, List.append_nil, ← contents_concat,
      keeps_iff (fun _ => id) fun _ => loadBytes_contents hobject (hsome (by simp)),
      keeps_iff (hstart [next]) fun _ => loadBytes_contents hobject (hsome (by simp))]
    simp only [hpositive, false_and, or_false, true_and]
    exact ⟨And.right, fun h => ⟨hless h, h⟩⟩
  · -- The record is complete.
    have hless : Loadable validators (certificates ++ [torn, next]) →
        Loadable validators (certificates ++ [torn]) := by
      have hmem : ∀ c ∈ certificates ++ [torn], c ∈ certificates ++ [torn, next] := by
        intro c hc
        simp only [List.mem_append, List.mem_singleton, List.mem_pair] at hc ⊢
        tauto
      exact fun h => ⟨fun c hc => h.verified c (hmem c hc),
        fun a ha b hb => h.single a (hmem a ha) b (hmem b hb)⟩
    have htwo : contents FinalityCertificate.json (certificates ++ [torn]) ++
        line FinalityCertificate.json next =
          contents FinalityCertificate.json (certificates ++ [torn, next]) := by
      rw [← contents_concat, List.append_assoc]
      rfl
    rw [hcut, ← contents_concat, htwo,
      keeps_iff (hstart [torn]) fun _ => loadBytes_contents hobject (hsome (by simp)),
      keeps_iff (hstart [torn, next]) fun _ => loadBytes_contents hobject (hsome (by simp))]
    simp only [hn, false_and, false_or, hlength, true_and]
    exact ⟨And.right, fun h => ⟨hless h, h⟩⟩
  · -- The record is complete, but for its line feed.
    have hglued : ¬Keeps read validators (contents FinalityCertificate.json certificates ++
        utf8 (text FinalityCertificate.json torn) ++ line FinalityCertificate.json next)
          certificates :=
      not_keeps fun _ => loadBytes_glued hobject hvalues torn next
    have hshort : ¬(line FinalityCertificate.json torn).length ≤ n := by omega
    rw [hcut]
    simp only [hglued, and_false, hn, hshort, false_and, or_false]
  · -- The record was cut.
    have hlost : ¬Keeps read validators (contents FinalityCertificate.json certificates ++
        (line FinalityCertificate.json torn).take n) certificates :=
      not_keeps fun _ => loadBytes_cut hobject hvalues htext hcut hrest
    have hshort : ¬(line FinalityCertificate.json torn).length ≤ n := by omega
    simp only [hlost, false_and, hn, hshort, or_false]

end

end FinalityStore

/-! ## Evidence -/

namespace EvidenceStore

/-- The file after these pieces of evidence were appended, each as a new one. -/
inductive Appended (read : String → Except String DoubleVoteEvidence) :
    List DoubleVoteEvidence → Bytes → Prop
  | nil : Appended read [] []
  | snoc {evidence : List DoubleVoteEvidence} {file file' : Bytes} {e : DoubleVoteEvidence}
      (earlier : Appended read evidence file) (written : append read file e = .ok (file', true)) :
      Appended read (evidence ++ [e]) file'

/-- The file loads and holds all this evidence. -/
def Keeps (read : String → Except String DoubleVoteEvidence) (file : Bytes)
    (evidence : List DoubleVoteEvidence) : Prop :=
  ∃ loaded, load read file = .ok loaded ∧ ∀ e ∈ evidence, e ∈ loaded

/-- The evidence survives a crash after some bytes of an append that writes the file, and a
following append. -/
def Tolerates (read : String → Except String DoubleVoteEvidence) (evidence : List DoubleVoteEvidence)
    (file whole : Bytes) (n : ℕ) (next : DoubleVoteEvidence) : Prop :=
  let crashed := whole.take (file.length + n)
  Keeps read crashed evidence ∧
    ∀ file' written, append read crashed next = .ok (file', written) → Keeps read file' evidence

variable {read : String → Except String DoubleVoteEvidence} {evidence : List DoubleVoteEvidence}
  {file file' : Bytes} {e : DoubleVoteEvidence}

theorem append_eq_ok {written : Bool} :
    append read file e = .ok (file', written) ↔
      e.verify = .ok () ∧ ∃ known, load read file = .ok known ∧
        (e.id ∈ known.map DoubleVoteEvidence.id ∧ file = file' ∧ false = written ∨
          e.id ∉ known.map DoubleVoteEvidence.id ∧
            file ++ line DoubleVoteEvidence.json e = file' ∧ true = written) := by
  rw [append, check_bind_eq_ok, bind_eq_ok]
  refine and_congr_right fun _ => exists_congr fun known => and_congr_right fun _ => ?_
  split_ifs with hknown <;> simp [pure_eq_ok, hknown]

theorem append_first (read : String → Except String DoubleVoteEvidence)
    (h : e.verify = .ok ()) : append read [] e = .ok (line DoubleVoteEvidence.json e, true) := by
  have hload : load read (contents DoubleVoteEvidence.json []) = .ok [] :=
    (loadText_contents DoubleVoteEvidence.isObject (by simp)).2 rfl
  exact append_eq_ok.2 ⟨h, [], hload, .inr ⟨List.not_mem_nil, List.nil_append _, rfl⟩⟩

theorem addVerified_new {known : List DoubleVoteEvidence} (hverify : e.verify = .ok ())
    (hnew : e.id ∉ known.map DoubleVoteEvidence.id) : addVerified known e = .ok (known ++ [e]) := by
  simp only [addVerified, check_bind_eq_ok, pure_eq_ok]
  exact ⟨hverify, if_neg hnew⟩

/-- What was appended is read back in the same order. -/
theorem Appended.spec (h : Appended read evidence file)
    (hreads : ∀ e ∈ evidence, ReadsBack DoubleVoteEvidence.json read e) :
    file = contents DoubleVoteEvidence.json evidence ∧
      evidence.foldlM addVerified [] = .ok evidence := by
  induction h with
  | nil => exact ⟨rfl, rfl⟩
  | @snoc evidence file file' e _ hwritten ih =>
      have hearlier : ∀ x ∈ evidence, ReadsBack DoubleVoteEvidence.json read x :=
        fun x hx => hreads x (List.mem_append_left _ hx)
      obtain ⟨rfl, hfold⟩ := ih hearlier
      have hload : load read (contents DoubleVoteEvidence.json evidence) = .ok evidence :=
        (loadText_contents DoubleVoteEvidence.isObject hearlier).2 hfold
      obtain ⟨hverify, known, hknown, hcases⟩ := append_eq_ok.1 hwritten
      cases hload.symm.trans hknown
      rcases hcases with ⟨-, -, hfalse⟩ | ⟨hnew, rfl, -⟩
      · cases hfalse
      · refine ⟨(contents_concat ..).symm, ?_⟩
        rw [List.foldlM_append, hfold, bind_eq_ok]
        refine ⟨evidence, rfl, ?_⟩
        rw [List.foldlM_cons, addVerified_new hverify hnew]
        rfl

theorem Appended.append_new (h : Appended read evidence file)
    (hreads : ∀ e ∈ evidence, ReadsBack DoubleVoteEvidence.json read e) (hverify : e.verify = .ok ())
    (hnew : e.id ∉ evidence.map DoubleVoteEvidence.id) :
    append read file e = .ok (file ++ line DoubleVoteEvidence.json e, true) := by
  obtain ⟨rfl, hfold⟩ := h.spec hreads
  have hload : load read (contents DoubleVoteEvidence.json evidence) = .ok evidence :=
    (loadText_contents DoubleVoteEvidence.isObject hreads).2 hfold
  exact append_eq_ok.2 ⟨hverify, evidence, hload, .inr ⟨hnew, rfl, rfl⟩⟩

theorem tolerates_iff (hvalues : ReadsValues read) {torn next : DoubleVoteEvidence} {whole : Bytes}
    (hevidence : Appended read evidence file) (htorn : append read file torn = .ok (whole, true))
    (hreads : ∀ e ∈ evidence ++ [torn, next], ReadsBack DoubleVoteEvidence.json read e) (n : ℕ) :
    Tolerates read evidence file whole n next ↔
      n = 0 ∨ (line DoubleVoteEvidence.json torn).length ≤ n ∨
        n + 1 = (line DoubleVoteEvidence.json torn).length ∧
          (next.verify = .ok () → next.id ∈ (evidence ++ [torn]).map DoubleVoteEvidence.id) ∨
        evidence = [] ∧ decodeUtf8 ((line DoubleVoteEvidence.json torn).take n) = none := by
  have hsome : ∀ {l : List DoubleVoteEvidence}, l ⊆ evidence ++ [torn, next] →
      ∀ e ∈ l, ReadsBack DoubleVoteEvidence.json read e := fun hl e he => hreads e (hl he)
  obtain ⟨rfl, hfold⟩ := hevidence.spec (hsome (by simp))
  have hload : load read (contents DoubleVoteEvidence.json evidence) = .ok evidence :=
    (loadText_contents DoubleVoteEvidence.isObject (hsome (by simp))).2 hfold
  obtain ⟨hverify, known, hknown, hcases⟩ := append_eq_ok.1 htorn
  cases hload.symm.trans hknown
  obtain ⟨hnew, rfl⟩ : torn.id ∉ evidence.map DoubleVoteEvidence.id ∧
      contents DoubleVoteEvidence.json evidence ++ line DoubleVoteEvidence.json torn = whole := by
    rcases hcases with ⟨-, -, hfalse⟩ | ⟨hnew, hwhole, -⟩
    · cases hfalse
    · exact ⟨hnew, hwhole⟩
  have hsurvives := survives_iff
    (fun row error => "이중투표 증거 " ++ decimal row ++ "번째 줄 오류: " ++ error)
    DoubleVoteEvidence.isObject hvalues (fun loaded => ∀ e ∈ evidence, e ∈ loaded)
    (fun loaded => next.verify = .ok () ∧ next.id ∉ loaded.map DoubleVoteEvidence.id)
    hreads hfold (addVerified_new hverify hnew) (fun _ => id) (fun _ => List.mem_append_left _) (by
      rintro s hs ⟨hnext, hfresh⟩
      refine ⟨_, addVerified_new hnext hfresh, fun e he => List.mem_append_left _ ?_⟩
      rcases hs with rfl | rfl
      · exact he
      · exact List.mem_append_left _ he) n
  have hcrashed := @List.take_length_add_append _ (contents DoubleVoteEvidence.json evidence)
    (line DoubleVoteEvidence.json torn) n
  have hempty : (∀ e ∈ evidence, e ∈ ([] : List DoubleVoteEvidence)) ↔ evidence = [] := by
    simp only [List.not_mem_nil, imp_false]
    exact List.eq_nil_iff_forall_not_mem.symm
  simp only [not_and, not_not, hempty] at hsurvives
  rw [← hsurvives, Tolerates, hcrashed]
  constructor
  · rintro ⟨hkeeps, hnext⟩
    refine ⟨hkeeps, fun s hs hfresh => hnext _ true ?_⟩
    exact append_eq_ok.2 ⟨hfresh.1, s, hs, .inr ⟨hfresh.2, rfl, rfl⟩⟩
  · rintro ⟨hkeeps, hcontinues⟩
    refine ⟨hkeeps, fun file' written hnext => ?_⟩
    obtain ⟨hverify, s, hs, hcases⟩ := append_eq_ok.1 hnext
    rcases hcases with ⟨-, rfl, -⟩ | ⟨hfresh, rfl, -⟩
    · exact hkeeps
    · exact hcontinues s hs ⟨hverify, hfresh⟩

end EvidenceStore

/-! ## Votes -/

namespace ConsensusWal

def empty : ConsensusWal := { file := [], signed := ∅ }

/-- The log after these votes were recorded. -/
inductive Recorded : List ConsensusMessage → ConsensusWal → Prop
  | nil : Recorded [] empty
  | snoc {votes : List ConsensusMessage} {wal wal' : ConsensusWal} {m : ConsensusMessage}
      (earlier : Recorded votes wal) (recorded : wal.recordBeforeBroadcast m = .ok wal') :
      Recorded (votes ++ [m]) wal'

/-- The log knows all these votes. -/
def Knows (signed : HashMap (ℕ × ℕ × VoteType) String) (votes : List ConsensusMessage) : Prop :=
  ∀ m ∈ votes, signed.lookup (voteKey m) = some m.blockHash

def Keeps (read : String → Except String ConsensusMessage) (file : Bytes)
    (votes : List ConsensusMessage) : Prop :=
  ∃ wal, openFile read file = .ok wal ∧ Knows wal.signed votes

/-- The votes survive a crash after some bytes of the next record, and a following one. -/
def Tolerates (read : String → Except String ConsensusMessage) (votes : List ConsensusMessage)
    (file whole : Bytes) (n : ℕ) (next : ConsensusMessage) : Prop :=
  let crashed := whole.take (file.length + n)
  Keeps read crashed votes ∧
    ∀ wal wal', openFile read crashed = .ok wal → wal.recordBeforeBroadcast next = .ok wal' →
      Keeps read wal'.file votes

variable {read : String → Except String ConsensusMessage} {votes : List ConsensusMessage}
  {wal wal' : ConsensusWal} {m : ConsensusMessage}

omit [Crypto] in
theorem knows_insert {signed : HashMap (ℕ × ℕ × VoteType) String}
    (h : Knows signed votes) (hnew : signed.lookup (voteKey m) = none) :
    Knows (signed.insert (voteKey m) m.blockHash) votes := by
  intro v hv
  have hne : voteKey v ≠ voteKey m := by
    intro heq
    have hknown := h v hv
    rw [heq, hnew] at hknown
    cases hknown
  rw [AList.lookup_insert_ne hne]
  exact h v hv

theorem addVerified_new {signed : HashMap (ℕ × ℕ × VoteType) String} (hverify : m.verify = .ok ())
    (hnew : signed.lookup (voteKey m) = none) :
    addVerified signed m = .ok (signed.insert (voteKey m) m.blockHash) := by
  simp [addVerified, hverify, hnew]

theorem recordBeforeBroadcast_eq_ok :
    wal.recordBeforeBroadcast m = .ok wal' ↔
      m.verify = .ok () ∧
        (wal.signed.lookup (voteKey m) = some m.blockHash ∧ wal = wal' ∨
          wal.signed.lookup (voteKey m) = none ∧
            { file := wal.file ++ line walVoteJson m
              signed := wal.signed.insert (voteKey m) m.blockHash } = wal') := by
  rw [recordBeforeBroadcast, check_bind_eq_ok]
  refine and_congr_right fun _ => ?_
  split
  next previous hprevious => simp [hprevious]
  next hnone => simp [hnone]

/-- The file holds the votes that were written, and the log knows exactly the recorded ones. -/
structure Sound (votes written : List ConsensusMessage) (wal : ConsensusWal) : Prop where
  file : wal.file = contents walVoteJson written
  signed : written.foldlM addVerified ∅ = .ok wal.signed
  subset : ∀ m ∈ written, m ∈ votes
  knows : Knows wal.signed votes
  known : ∀ key ∈ wal.signed, ∃ m ∈ votes, voteKey m = key

theorem Sound.record {written : List ConsensusMessage} (h : Sound votes written wal)
    (hrecord : wal.recordBeforeBroadcast m = .ok wal') :
    ∃ written', Sound (votes ++ [m]) written' wal' := by
  obtain ⟨hfile, hsigned, hsubset, hknows, hknown⟩ := h
  obtain ⟨hverify, ⟨hsame, rfl⟩ | ⟨hnew, rfl⟩⟩ := recordBeforeBroadcast_eq_ok.1 hrecord
  · refine ⟨written, hfile, hsigned, fun v hv => List.mem_append_left _ (hsubset v hv), ?_, ?_⟩
    · exact List.forall_mem_append.2 ⟨hknows, List.forall_mem_singleton.2 hsame⟩
    · exact fun key hkey =>
        (hknown key hkey).imp fun _ => And.imp_left (List.mem_append_left _)
  · refine ⟨written ++ [m], ?_, ?_, fun v hv => ?_, ?_, ?_⟩
    · rw [contents_concat, ← hfile]
    · rw [List.foldlM_append, hsigned, bind_eq_ok]
      refine ⟨_, rfl, ?_⟩
      rw [List.foldlM_cons, addVerified_new hverify hnew]
      rfl
    · rw [List.mem_append] at hv ⊢
      exact hv.imp_left (hsubset v)
    · exact List.forall_mem_append.2 ⟨knows_insert hknows hnew,
        List.forall_mem_singleton.2 (AList.lookup_insert ..)⟩
    · intro key hkey
      rcases (AList.mem_insert _).1 hkey with rfl | hkey
      · exact ⟨m, by simp, rfl⟩
      · exact (hknown key hkey).imp fun _ => And.imp_left (List.mem_append_left _)

theorem Recorded.sound (h : Recorded votes wal) : ∃ written, Sound votes written wal := by
  induction h with
  | nil => exact ⟨[], rfl, rfl, fun _ => id, by simp [Knows], fun key hkey => by cases hkey⟩
  | snoc _ hrecorded ih =>
      obtain ⟨written, hsound⟩ := ih
      exact hsound.record hrecorded

theorem openFile_eq_ok {file : Bytes} :
    openFile read file = .ok wal ↔ reload read file = .ok wal.signed ∧ wal.file = file := by
  simp only [openFile, bind_eq_ok, pure_eq_ok]
  constructor
  · rintro ⟨signed, hsigned, rfl⟩
    exact ⟨hsigned, rfl⟩
  · rintro ⟨hsigned, rfl⟩
    exact ⟨_, hsigned, rfl⟩

theorem keeps_iff {file : Bytes} :
    Keeps read file votes ↔ ∃ signed, reload read file = .ok signed ∧ Knows signed votes := by
  simp only [Keeps, openFile_eq_ok]
  constructor
  · rintro ⟨wal, ⟨hreload, -⟩, hknows⟩
    exact ⟨wal.signed, hreload, hknows⟩
  · rintro ⟨signed, hreload, hknows⟩
    exact ⟨{ file, signed }, ⟨hreload, rfl⟩, hknows⟩

theorem tolerates_iff (hvalues : ReadsValues read) {torn next : ConsensusMessage}
    (hvotes : Recorded votes wal) (htorn : wal.recordBeforeBroadcast torn = .ok wal')
    (hwritten : wal'.file ≠ wal.file)
    (hreads : ∀ m ∈ votes ++ [torn, next], ReadsBack walVoteJson read m) (n : ℕ) :
    Tolerates read votes wal.file wal'.file n next ↔
      n = 0 ∨ (line walVoteJson torn).length ≤ n ∨
        n + 1 = (line walVoteJson torn).length ∧
          (next.verify = .ok () → voteKey next ∈ (votes ++ [torn]).map voteKey) ∨
        votes = [] ∧ decodeUtf8 ((line walVoteJson torn).take n) = none := by
  obtain ⟨written, hfile, hsigned, hsubset, hknows, hknown⟩ := hvotes.sound
  obtain ⟨hverify, ⟨-, rfl⟩ | ⟨hnew, rfl⟩⟩ := recordBeforeBroadcast_eq_ok.1 htorn
  · exact absurd rfl hwritten
  have hlast : ∀ m ∈ written ++ [torn, next], ReadsBack walVoteJson read m := fun m hm =>
    hreads m (List.mem_append.2 ((List.mem_append.1 hm).imp_left (hsubset m)))
  have hkeys : ∀ key, (wal.signed.insert (voteKey torn) torn.blockHash).lookup key = none ↔
      key ∉ (votes ++ [torn]).map voteKey := by
    intro key
    have hsigned : key ∈ wal.signed ↔ ∃ m ∈ votes, voteKey m = key := by
      refine ⟨hknown key, ?_⟩
      rintro ⟨m, hm, rfl⟩
      exact AList.lookup_isSome.1 (by rw [hknows m hm]; rfl)
    rw [AList.lookup_eq_none, AList.mem_insert, hsigned, List.mem_map, not_iff_not]
    simp only [List.mem_append, List.mem_singleton, or_and_right, exists_or, exists_eq_left]
    rw [or_comm, eq_comm]
  have hsurvives := survives_iff
    (fun row error => "WAL " ++ decimal row ++ "번째 줄 복구 실패: " ++ error)
    isObject_walVoteJson hvalues (fun signed => Knows signed votes)
    (fun signed => next.verify = .ok () ∧ signed.lookup (voteKey next) = none)
    hlast hsigned (addVerified_new hverify hnew) hknows (knows_insert hknows hnew) (by
      rintro s hs ⟨hnext, hfresh⟩
      refine ⟨_, addVerified_new hnext hfresh, knows_insert ?_ hfresh⟩
      rcases hs with rfl | rfl
      · exact hknows
      · exact knows_insert hknows hnew) n
  have hcrashed := @List.take_length_add_append _ wal.file (line walVoteJson torn) n
  have hempty : Knows ∅ votes ↔ votes = [] := by
    simp only [Knows, AList.lookup_empty, reduceCtorEq, imp_false]
    exact List.eq_nil_iff_forall_not_mem.symm
  simp only [not_and, hkeys, not_not, hempty, ← hfile] at hsurvives
  rw [← hsurvives, Tolerates, hcrashed, keeps_iff]
  constructor
  · rintro ⟨hkeeps, hnext⟩
    refine ⟨hkeeps, fun s hs hfresh => ?_⟩
    exact keeps_iff.1 (hnext ⟨_, s⟩ _ (openFile_eq_ok.2 ⟨hs, rfl⟩)
      (recordBeforeBroadcast_eq_ok.2 ⟨hfresh.1, .inr ⟨hfresh.2, rfl⟩⟩))
  · rintro ⟨hkeeps, hcontinues⟩
    refine ⟨hkeeps, fun wal₁ wal₂ hopen hnext => ?_⟩
    obtain ⟨hreload, hsame⟩ := openFile_eq_ok.1 hopen
    obtain ⟨hverify, ⟨-, rfl⟩ | ⟨hfresh, rfl⟩⟩ := recordBeforeBroadcast_eq_ok.1 hnext
    · rw [hsame]
      exact keeps_iff.2 hkeeps
    · rw [keeps_iff, hsame]
      exact hcontinues _ hreload ⟨hverify, hfresh⟩

end ConsensusWal

/-- What each of the stores tolerates, for a reader of lines that accepts single values only and
reads these records as they were written. -/
theorem stores_tolerate_iff {readCertificate : String → Except String FinalityCertificate}
    {readEvidence : String → Except String DoubleVoteEvidence}
    {readVote : String → Except String ConsensusMessage} (hcertificate : ReadsValues readCertificate)
    (hevidence : ReadsValues readEvidence) (hvote : ReadsValues readVote) :
    (∀ validators certificates torn n next,
      (∀ c ∈ certificates ++ [torn, next],
        ReadsBack FinalityCertificate.json readCertificate c) →
      (FinalityStore.Tolerates readCertificate validators certificates torn n next ↔
        n = 0 ∧ FinalityStore.Loadable validators (certificates ++ [next]) ∨
          (line FinalityCertificate.json torn).length ≤ n ∧
            FinalityStore.Loadable validators (certificates ++ [torn, next]))) ∧
    (∀ evidence file torn whole n next, EvidenceStore.Appended readEvidence evidence file →
      EvidenceStore.append readEvidence file torn = .ok (whole, true) →
      (∀ e ∈ evidence ++ [torn, next], ReadsBack DoubleVoteEvidence.json readEvidence e) →
      (EvidenceStore.Tolerates readEvidence evidence file whole n next ↔
        n = 0 ∨ (line DoubleVoteEvidence.json torn).length ≤ n ∨
          n + 1 = (line DoubleVoteEvidence.json torn).length ∧
            (next.verify = .ok () → next.id ∈ (evidence ++ [torn]).map DoubleVoteEvidence.id) ∨
          evidence = [] ∧ decodeUtf8 ((line DoubleVoteEvidence.json torn).take n) = none)) ∧
    ∀ votes wal torn wal' n next, ConsensusWal.Recorded votes wal →
      wal.recordBeforeBroadcast torn = .ok wal' → wal'.file ≠ wal.file →
      (∀ m ∈ votes ++ [torn, next], ReadsBack walVoteJson readVote m) →
      (ConsensusWal.Tolerates readVote votes wal.file wal'.file n next ↔
        n = 0 ∨ (line walVoteJson torn).length ≤ n ∨
          n + 1 = (line walVoteJson torn).length ∧
            (next.verify = .ok () →
              ConsensusWal.voteKey next ∈ (votes ++ [torn]).map ConsensusWal.voteKey) ∨
          votes = [] ∧ decodeUtf8 ((line walVoteJson torn).take n) = none) := by
  refine ⟨fun validators certificates torn n next hreads => ?_,
    fun evidence file torn whole n next hevidences htorn hreads => ?_,
    fun votes wal torn wal' n next hvotes htorn hwritten hreads => ?_⟩
  · exact FinalityStore.tolerates_iff hcertificate hreads n
  · exact EvidenceStore.tolerates_iff hevidence hevidences htorn hreads n
  · exact ConsensusWal.tolerates_iff hvote hvotes htorn hwritten hreads n

/-! The first record of each store, cut off and appended again. -/

namespace ConsensusWal

/-- The log after its first vote. -/
def first (m : ConsensusMessage) : ConsensusWal :=
  { file := line walVoteJson m, signed := AList.insert (voteKey m) m.blockHash ∅ }

theorem recordBeforeBroadcast_first {m : ConsensusMessage} (h : m.verify = .ok ()) :
    empty.recordBeforeBroadcast m = .ok (first m) := by
  refine recordBeforeBroadcast_eq_ok.2 ⟨h, .inr ⟨AList.lookup_empty _, ?_⟩⟩
  rw [first, empty, List.nil_append]

omit [Crypto] in
theorem first_file_ne (m : ConsensusMessage) : (first m).file ≠ empty.file := by
  obtain ⟨body, hbody⟩ := exists_line_eq isObject_walVoteJson m
  rw [first, hbody]
  exact List.cons_ne_nil _ _

/-- After one byte of its first vote the log does not open. -/
theorem not_keeps_one_byte (m : ConsensusMessage) :
    ¬Keeps (readOnly walVoteJson m) ((first m).file.take (empty.file.length + 1)) [] := by
  have hvalues := readsValues_readOnly isObject_walVoteJson m
  obtain ⟨body, hbody⟩ := exists_line_eq isObject_walVoteJson m
  have hfile : (first m).file.take (empty.file.length + 1) =
      contents walVoteJson [] ++ (line walVoteJson m).take 1 := by
    rw [first, empty, List.length_nil, Nat.zero_add, contents, List.flatMap_nil, List.nil_append]
  have hlength : 1 + 1 < (line walVoteJson m).length := by
    rw [hbody]
    simp
  have hbrace : (line walVoteJson m).take 1 = utf8 "\x7b" := by
    rw [hbody]
    rfl
  rw [hfile, hbrace, keeps_iff]
  rintro ⟨signed, hreload, -⟩
  rcases take_line isObject_walVoteJson m 1 with ⟨hn, -⟩ | ⟨-, hn, -⟩ | ⟨-, hn, -⟩ |
    ⟨-, -, hcut, rest, hrest, htext⟩
  · omega
  · omega
  · omega
  · rw [hbrace] at hcut htext
    exact loadText_cut isObject_walVoteJson hvalues htext hcut hrest (decodeUtf8_utf8 _) hreload

end ConsensusWal

end

namespace Lone

local instance tornCrypto : Crypto := StandIn.crypto StandIn.digest

theorem verify_ballot (blockHash : String) : (ballot blockHash).verify = .ok () := by
  have hsigned : ∀ x, (ballot x).verify = .ok () := fun x => StandIn.verifySignature_sign _ 1 _
  exact hsigned blockHash

/-- A validator whose log holds one byte of its first vote cannot start. -/
theorem wal_lost_after_one_byte :
    ReadsValues (readOnly walVoteJson (ballot "a")) ∧
      ReadsBack walVoteJson (readOnly walVoteJson (ballot "a")) (ballot "a") ∧
      ConsensusWal.Recorded [] ConsensusWal.empty ∧
      ConsensusWal.empty.recordBeforeBroadcast (ballot "a") =
        .ok (ConsensusWal.first (ballot "a")) ∧
      ¬ConsensusWal.Keeps (readOnly walVoteJson (ballot "a"))
        ((ConsensusWal.first (ballot "a")).file.take (ConsensusWal.empty.file.length + 1)) [] :=
  ⟨readsValues_readOnly isObject_walVoteJson _, readsBack_readOnly _, .nil,
    ConsensusWal.recordBeforeBroadcast_first (verify_ballot "a"), ConsensusWal.not_keeps_one_byte _⟩

def certified : FinalityCertificate :=
  { block := block, round := 0, precommits := [vote block .precommit] }

theorem loadable_certified {certificates : List FinalityCertificate}
    (h : ∀ c ∈ certificates, c = certified) : FinalityStore.Loadable [⟨self, 1⟩] certificates := by
  have hsealed : block.hash = block.calculateHash := Block.new_hash ..
  constructor
  · intro c hc
    rw [h c hc]
    exact verify_certificate StandIn.digest (b := block) hsealed rfl
  · intro a ha b hb _
    rw [h a ha, h b hb]

/-- A vote at the height above. -/
def laterBallot (blockHash : String) : ConsensusMessage :=
  { height := 2, round := 0, validatorId := self, voteType := .prevote, blockHash
    signature := StandIn.sign 1 (ConsensusMessage.bytesToSign 2 0 self .prevote blockHash) }

def laterDoubleVote : DoubleVoteEvidence := ⟨laterBallot "a", laterBallot "b"⟩

theorem verify_laterBallot (blockHash : String) : (laterBallot blockHash).verify = .ok () := by
  have hsigned : ∀ x, (laterBallot x).verify = .ok () := fun x => StandIn.verifySignature_sign _ 1 _
  exact hsigned blockHash

theorem verify_laterDoubleVote : laterDoubleVote.verify = .ok () := by
  simp only [DoubleVoteEvidence.verify, check_bind_eq_ok, laterDoubleVote, verify_laterBallot]
  simp [laterBallot]

/-- Records with different first characters have different texts. -/
theorem text_injOn_pair {α : Type} {write : α → Json} {r s : α}
    (h : (write r).take 40 ≠ (write s).take 40) : Set.InjOn (text write) {x | x ∈ [r, s]} := by
  have hne : text write r ≠ text write s := by
    intro heq
    apply h
    rw [String.ofList_injective heq]
  intro x hx y hy heq
  rw [Set.mem_ofPred_eq, List.mem_pair] at hx hy
  rcases hx with rfl | rfl <;> rcases hy with rfl | rfl
  · rfl
  · exact absurd heq hne
  · exact absurd heq.symm hne
  · rfl

def readEvidence : String → Except String DoubleVoteEvidence :=
  readAmong DoubleVoteEvidence.json [doubleVote, laterDoubleVote]

def readVote : String → Except String ConsensusMessage :=
  readAmong walVoteJson [ballot "a", laterBallot "a"]

/-- Each store holds a record when the append of the next one is cut off. A cut in its middle
is not tolerated; that the line feed alone is missing is, if the append is only repeated. -/
theorem stores_tolerate_iff_cut :
    (¬FinalityStore.Tolerates (readOnly FinalityCertificate.json certified) [⟨self, 1⟩] [certified]
          certified 1 certified ∧
        FinalityStore.Tolerates (readOnly FinalityCertificate.json certified) [⟨self, 1⟩]
          [certified] certified (line FinalityCertificate.json certified).length certified) ∧
      (∃ file whole, EvidenceStore.append readEvidence [] doubleVote = .ok (file, true) ∧
        EvidenceStore.append readEvidence file laterDoubleVote = .ok (whole, true) ∧
        ¬EvidenceStore.Tolerates readEvidence [doubleVote] file whole 1 laterDoubleVote ∧
        EvidenceStore.Tolerates readEvidence [doubleVote] file whole
          ((line DoubleVoteEvidence.json laterDoubleVote).length - 1) laterDoubleVote) ∧
      ∃ wal wal', ConsensusWal.empty.recordBeforeBroadcast (ballot "a") = .ok wal ∧
        wal.recordBeforeBroadcast (laterBallot "a") = .ok wal' ∧
        ¬ConsensusWal.Tolerates readVote [ballot "a"] wal.file wal'.file 1 (laterBallot "a") ∧
        ConsensusWal.Tolerates readVote [ballot "a"] wal.file wal'.file
          ((line walVoteJson (laterBallot "a")).length - 1) (laterBallot "a") := by
  have hlong : ∀ {α : Type} {write : α → Json} (r : α), (∀ r, IsObject (write r)) →
      2 < (line write r).length := by
    intro α write r hobject
    obtain ⟨body, hbody⟩ := exists_line_eq hobject r
    rw [hbody]
    simp
  have hevidenceReads : ∀ e ∈ [doubleVote] ++ [laterDoubleVote, laterDoubleVote],
      ReadsBack DoubleVoteEvidence.json readEvidence e := by
    intro e he
    exact readsBack_readAmong (text_injOn_pair (by decide)) (by simpa using he)
  have hvoteReads : ∀ m ∈ [ballot "a"] ++ [laterBallot "a", laterBallot "a"],
      ReadsBack walVoteJson readVote m := by
    intro m hm
    exact readsBack_readAmong (text_injOn_pair (by decide)) (by simpa using hm)
  have hevidenceValues : ReadsValues readEvidence :=
    readsValues_readAmong DoubleVoteEvidence.isObject _
  have hvoteValues : ReadsValues readVote := readsValues_readAmong isObject_walVoteJson _
  obtain ⟨hcertificates, hevidence, hvotes⟩ := stores_tolerate_iff
    (readsValues_readOnly FinalityCertificate.isObject certified)
    hevidenceValues hvoteValues
  refine ⟨?_, ?_, ?_⟩
  · have hreads : ∀ c ∈ [certified] ++ [certified, certified],
        ReadsBack FinalityCertificate.json (readOnly FinalityCertificate.json certified) c := by
      intro c hc
      have hsame : c = certified := by simpa using hc
      subst hsame
      exact readsBack_readOnly certified
    have hlength := hlong certified FinalityCertificate.isObject
    constructor
    · rw [hcertificates _ _ _ _ _ hreads]
      omega
    · rw [hcertificates _ _ _ _ _ hreads]
      exact .inr ⟨le_rfl, loadable_certified (by simp)⟩
  · have hfirst := EvidenceStore.append_first readEvidence verify_doubleVote
    have happended : EvidenceStore.Appended readEvidence [doubleVote] _ := .snoc .nil hfirst
    have hsecond : EvidenceStore.append readEvidence (line DoubleVoteEvidence.json doubleVote)
        laterDoubleVote = .ok (line DoubleVoteEvidence.json doubleVote ++
          line DoubleVoteEvidence.json laterDoubleVote, true) :=
      happended.append_new (fun e he => hevidenceReads e (List.mem_append_left _ he))
        verify_laterDoubleVote (by decide)
    have hlength := hlong laterDoubleVote DoubleVoteEvidence.isObject
    refine ⟨_, _, hfirst, hsecond, ?_, ?_⟩
    · rw [hevidence _ _ _ _ _ _ happended hsecond hevidenceReads]
      simp only [List.cons_ne_nil, false_and, or_false]
      omega
    · rw [hevidence _ _ _ _ _ _ happended hsecond hevidenceReads]
      exact .inr (.inr (.inl ⟨by omega, fun _ => by simp⟩))
  · have hfirst := ConsensusWal.recordBeforeBroadcast_first (verify_ballot "a")
    have hrecorded : ConsensusWal.Recorded [ballot "a"] _ := .snoc .nil hfirst
    have hsecond : (ConsensusWal.first (ballot "a")).recordBeforeBroadcast (laterBallot "a") =
        .ok { file := (ConsensusWal.first (ballot "a")).file ++ line walVoteJson (laterBallot "a")
              signed := (ConsensusWal.first (ballot "a")).signed.insert
                (ConsensusWal.voteKey (laterBallot "a")) (laterBallot "a").blockHash } :=
      ConsensusWal.recordBeforeBroadcast_eq_ok.2 ⟨verify_laterBallot "a", .inr ⟨by decide, rfl⟩⟩
    have hlength := hlong (laterBallot "a") isObject_walVoteJson
    have hwritten : (ConsensusWal.first (ballot "a")).file ++ line walVoteJson (laterBallot "a") ≠
        (ConsensusWal.first (ballot "a")).file := by
      intro heq
      have hempty : line walVoteJson (laterBallot "a") = [] := List.append_right_eq_self.1 heq
      rw [hempty] at hlength
      cases hlength
    refine ⟨_, _, hfirst, hsecond, ?_, ?_⟩
    · rw [hvotes _ _ _ _ _ _ hrecorded hsecond hwritten hvoteReads]
      simp only [List.cons_ne_nil, false_and, or_false]
      omega
    · rw [hvotes _ _ _ _ _ _ hrecorded hsecond hwritten hvoteReads]
      exact .inr (.inr (.inl ⟨by omega, fun _ => by simp⟩))

end Lone

end IeumChain
