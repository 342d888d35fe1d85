import IeumChain.Library.MachineWords
import IeumChain.Library.Outcome
import Mathlib.Algebra.BigOperators.Group.Finset.Basic
import Mathlib.Data.String.Basic

/-!
# Counting signed votes

One loop checks a list of votes, looks up the power of each voter and adds it once
per voter. A second vote of the same voter is either skipped or an error. What a
successful count means is stated once: a set of voters with that total power, each
of whom cast one of the votes.
-/
namespace VoteTally

open Outcome MachineWords

/-- The parameters in which the counting loops differ. -/
structure Rule (ν : Type) where
  matching : ν → Bool
  mismatch : String
  verify : ν → Except String Unit
  voter : ν → String
  power : String → Option ℕ
  unknown : String
  /-- The error for a repeated voter; a repetition is skipped if there is none. -/
  duplicate : Option String
  top : ℕ
  overflow : String

section
variable {ν : Type} (rule : Rule ν)

def loop : List String → ℕ → List ν → Except String ℕ
  | _, sum, [] => .ok sum
  | voters, sum, vote :: rest => do
      reject (¬rule.matching vote) rule.mismatch
      rule.verify vote
      let power ← okOr (rule.power (rule.voter vote)) rule.unknown
      if rule.voter vote ∈ voters then
        match rule.duplicate with
        | some e => .error e
        | none => loop voters sum rest
      else do
        let sum ← okOr (checkedAdd rule.top sum power) rule.overflow
        loop (rule.voter vote :: voters) sum rest

def count (votes : List ν) : Except String ℕ := loop rule [] 0 votes

/-- A vote that passes every check of the rule. -/
def Accepted (vote : ν) : Prop :=
  rule.matching vote = true ∧ rule.verify vote = .ok () ∧ (rule.power (rule.voter vote)).isSome

def powerOf (id : String) : ℕ := (rule.power id).getD 0

theorem loop_sound {votes : List ν} {voters : List String} {sum n : ℕ}
    (h : loop rule voters sum votes = .ok n) :
    ∃ ids : Finset String, (∀ id ∈ ids, id ∉ voters) ∧ n = sum + ∑ id ∈ ids, powerOf rule id ∧
      ∀ id ∈ ids, ∃ vote ∈ votes, rule.voter vote = id ∧ Accepted rule vote := by
  induction votes generalizing voters sum with
  | nil =>
      cases h
      exact ⟨∅, by simp⟩
  | cons vote rest ih =>
      simp only [loop, check_bind_eq_ok, reject_eq_ok, not_not] at h
      obtain ⟨hmatching, hverify, h⟩ := h
      simp only [bind_eq_ok, okOr_eq_ok] at h
      obtain ⟨power, hpower, h⟩ := h
      have haccepted : Accepted rule vote := ⟨hmatching, hverify, by simp [hpower]⟩
      split_ifs at h with hknown
      · split at h
        · cases h
        · obtain ⟨ids, hfresh, hsum, hvotes⟩ := ih h
          refine ⟨ids, hfresh, hsum, fun id hid => ?_⟩
          obtain ⟨v, hv, hvid⟩ := hvotes id hid
          exact ⟨v, List.mem_cons_of_mem _ hv, hvid⟩
      · simp only [bind_eq_ok, okOr_eq_ok, checkedAdd_eq_some] at h
        obtain ⟨_, ⟨rfl, -⟩, h⟩ := h
        obtain ⟨ids, hfresh, hsum, hvotes⟩ := ih h
        have hnew : rule.voter vote ∉ ids := fun hid =>
          hfresh _ hid (List.mem_cons_self ..)
        refine ⟨insert (rule.voter vote) ids, ?_, ?_, ?_⟩
        · intro id hid
          rcases Finset.mem_insert.1 hid with rfl | hid
          · exact hknown
          · exact fun hmem => hfresh id hid (List.mem_cons_of_mem _ hmem)
        · rw [Finset.sum_insert hnew, hsum, powerOf, hpower, Option.getD_some]
          omega
        · intro id hid
          rcases Finset.mem_insert.1 hid with rfl | hid
          · exact ⟨vote, List.mem_cons_self .., rfl, haccepted⟩
          · obtain ⟨v, hv, hvid⟩ := hvotes id hid
            exact ⟨v, List.mem_cons_of_mem _ hv, hvid⟩

/-- A successful count is the power of a set of voters with accepted votes. -/
theorem count_sound {votes : List ν} {n : ℕ} (h : count rule votes = .ok n) :
    ∃ ids : Finset String, n = ∑ id ∈ ids, powerOf rule id ∧
      ∀ id ∈ ids, ∃ vote ∈ votes, rule.voter vote = id ∧ Accepted rule vote := by
  obtain ⟨ids, -, hsum, hvotes⟩ := loop_sound rule h
  exact ⟨ids, by simpa using hsum, hvotes⟩

/-- A successful count has checked every vote. -/
theorem accepted_of_loop {votes : List ν} {voters : List String} {sum n : ℕ}
    (h : loop rule voters sum votes = .ok n) : ∀ vote ∈ votes, Accepted rule vote := by
  induction votes generalizing voters sum with
  | nil => exact List.forall_mem_nil _
  | cons vote rest ih =>
      simp only [loop, check_bind_eq_ok, reject_eq_ok, not_not] at h
      obtain ⟨hmatching, hverify, h⟩ := h
      simp only [bind_eq_ok, okOr_eq_ok] at h
      obtain ⟨power, hpower, h⟩ := h
      refine List.forall_mem_cons.2 ⟨⟨hmatching, hverify, by simp [hpower]⟩, ?_⟩
      split_ifs at h
      · split at h
        · cases h
        · exact ih h
      · simp only [bind_eq_ok] at h
        obtain ⟨_, -, h⟩ := h
        exact ih h

theorem loop_complete {votes : List ν} {voters : List String} {sum : ℕ}
    (haccepted : ∀ vote ∈ votes, Accepted rule vote) (hnodup : (votes.map rule.voter).Nodup)
    (hfresh : ∀ vote ∈ votes, rule.voter vote ∉ voters)
    (htop : sum + (votes.map fun vote => powerOf rule (rule.voter vote)).sum ≤ rule.top) :
    loop rule voters sum votes =
      .ok (sum + (votes.map fun vote => powerOf rule (rule.voter vote)).sum) := by
  induction votes generalizing voters sum with
  | nil => simp [loop]
  | cons vote rest ih =>
      obtain ⟨hmatching, hverify, hknown⟩ := haccepted vote (List.mem_cons_self ..)
      obtain ⟨power, hpower⟩ := Option.isSome_iff_exists.1 hknown
      have hpowerOf : powerOf rule (rule.voter vote) = power := by rw [powerOf, hpower]; rfl
      rw [List.map_cons, List.nodup_cons] at hnodup
      rw [List.map_cons, List.sum_cons, hpowerOf] at htop ⊢
      have hsum : checkedAdd rule.top sum power = some (sum + power) :=
        checkedAdd_eq_some.2 ⟨rfl, by omega⟩
      have hrest := @ih (rule.voter vote :: voters) (sum + power)
        (fun v hv => haccepted v (List.mem_cons_of_mem _ hv)) hnodup.2 (by
          intro v hv hmem
          rcases List.mem_cons.1 hmem with heq | hmem
          · exact hnodup.1 (heq ▸ List.mem_map_of_mem hv)
          · exact hfresh v (List.mem_cons_of_mem _ hv) hmem) (by omega)
      rw [← add_assoc]
      simp only [loop, check_bind_eq_ok, reject_eq_ok, not_not]
      refine ⟨hmatching, hverify, ?_⟩
      simp only [bind_eq_ok, okOr_eq_ok]
      refine ⟨power, hpower, ?_⟩
      rw [if_neg (hfresh vote (List.mem_cons_self ..)), bind_eq_ok]
      exact ⟨sum + power, okOr_eq_ok.2 hsum, hrest⟩

/-- Accepted votes of distinct voters count for the sum of their powers. -/
theorem count_complete {votes : List ν} (haccepted : ∀ vote ∈ votes, Accepted rule vote)
    (hnodup : (votes.map rule.voter).Nodup)
    (htop : (votes.map fun vote => powerOf rule (rule.voter vote)).sum ≤ rule.top) :
    count rule votes = .ok (votes.map fun vote => powerOf rule (rule.voter vote)).sum := by
  have h := @loop_complete _ rule votes [] 0 haccepted hnodup (fun _ _ => List.not_mem_nil)
    (by omega)
  rwa [zero_add] at h

theorem loop_of_skips (hskips : rule.duplicate = none) {votes : List ν} {voters : List String}
    {sum : ℕ} (haccepted : ∀ vote ∈ votes, Accepted rule vote)
    (htop : sum + ∑ id ∈ (votes.map rule.voter).toFinset \ voters.toFinset, powerOf rule id ≤
      rule.top) :
    loop rule voters sum votes =
      .ok (sum + ∑ id ∈ (votes.map rule.voter).toFinset \ voters.toFinset, powerOf rule id) := by
  induction votes generalizing voters sum with
  | nil => simp [loop]
  | cons vote rest ih =>
      rw [List.forall_mem_cons] at haccepted
      obtain ⟨⟨hmatching, hverify, hknown⟩, hrest⟩ := haccepted
      obtain ⟨power, hpower⟩ := Option.isSome_iff_exists.1 hknown
      simp only [loop, check_bind_eq_ok, reject_eq_ok, not_not, hskips]
      refine ⟨hmatching, hverify, ?_⟩
      simp only [bind_eq_ok, okOr_eq_ok]
      refine ⟨power, hpower, ?_⟩
      by_cases hvoter : rule.voter vote ∈ voters
      · have hsame : ((vote :: rest).map rule.voter).toFinset \ voters.toFinset =
            (rest.map rule.voter).toFinset \ voters.toFinset := by
          rw [List.map_cons, List.toFinset_cons,
            Finset.insert_sdiff_of_mem _ (List.mem_toFinset.2 hvoter)]
        rw [hsame] at htop ⊢
        rw [if_pos hvoter]
        exact ih hrest htop
      · have hnew : ((vote :: rest).map rule.voter).toFinset \ voters.toFinset =
            insert (rule.voter vote)
              ((rest.map rule.voter).toFinset \ (rule.voter vote :: voters).toFinset) := by
          ext id
          simp only [List.map_cons, List.toFinset_cons, Finset.mem_sdiff, Finset.mem_insert,
            List.mem_toFinset, not_or]
          constructor
          · rintro ⟨rfl | hid, hnot⟩
            · exact .inl rfl
            · by_cases heq : id = rule.voter vote
              · exact .inl heq
              · exact .inr ⟨hid, heq, hnot⟩
          · rintro (rfl | ⟨hid, -, hnot⟩)
            · exact ⟨.inl rfl, hvoter⟩
            · exact ⟨.inr hid, hnot⟩
        have hpowerOf : powerOf rule (rule.voter vote) = power := by rw [powerOf, hpower]; rfl
        rw [hnew, Finset.sum_insert (by simp), hpowerOf, ← add_assoc] at htop ⊢
        have hsum : checkedAdd rule.top sum power = some (sum + power) :=
          checkedAdd_eq_some.2 ⟨rfl, by omega⟩
        rw [if_neg hvoter, bind_eq_ok]
        exact ⟨sum + power, okOr_eq_ok.2 hsum, ih hrest htop⟩

/-- Where repetitions are skipped, a list of accepted votes counts as the set of its voters. -/
theorem count_of_skips (hskips : rule.duplicate = none) {votes : List ν}
    (haccepted : ∀ vote ∈ votes, Accepted rule vote)
    (htop : ∑ id ∈ (votes.map rule.voter).toFinset, powerOf rule id ≤ rule.top) :
    count rule votes = .ok (∑ id ∈ (votes.map rule.voter).toFinset, powerOf rule id) := by
  have hcount := @loop_of_skips _ rule hskips votes [] 0 haccepted (by simpa using htop)
  simpa [count] using hcount

/-- Where duplicates are refused, a successful loop has met each voter once. -/
theorem loop_distinct (hduplicate : rule.duplicate.isSome = true) {votes : List ν}
    {voters : List String} {sum n : ℕ} (h : loop rule voters sum votes = .ok n) :
    (votes.map rule.voter).Nodup ∧ (∀ vote ∈ votes, rule.voter vote ∉ voters) ∧
      n = sum + (votes.map fun vote => powerOf rule (rule.voter vote)).sum ∧
      (sum ≤ rule.top → n ≤ rule.top) := by
  induction votes generalizing voters sum with
  | nil =>
      cases h
      exact ⟨List.nodup_nil, List.forall_mem_nil _, rfl, id⟩
  | cons vote rest ih =>
      simp only [loop, check_bind_eq_ok] at h
      obtain ⟨-, -, h⟩ := h
      simp only [bind_eq_ok, okOr_eq_ok] at h
      obtain ⟨power, hpower, h⟩ := h
      split_ifs at h with hseen
      · obtain ⟨e, he⟩ := Option.isSome_iff_exists.1 hduplicate
        rw [he] at h
        cases h
      · simp only [bind_eq_ok, okOr_eq_ok] at h
        obtain ⟨sum', hsum, h⟩ := h
        obtain ⟨rfl, htop⟩ := checkedAdd_eq_some.1 hsum
        obtain ⟨hnodup, hfresh, rfl, hle⟩ := ih h
        have hpowerOf : powerOf rule (rule.voter vote) = power := by rw [powerOf, hpower]; rfl
        refine ⟨?_, ?_, ?_, fun _ => hle htop⟩
        · rw [List.map_cons, List.nodup_cons]
          refine ⟨fun hmem => ?_, hnodup⟩
          obtain ⟨v, hv, heq⟩ := List.mem_map.1 hmem
          exact hfresh v hv (heq ▸ List.mem_cons_self ..)
        · refine List.forall_mem_cons.2 ⟨hseen, fun v hv hmem => ?_⟩
          exact hfresh v hv (List.mem_cons_of_mem _ hmem)
        · rw [List.map_cons, List.sum_cons, hpowerOf, add_assoc]

/-- Where duplicates are refused, a count succeeds exactly on accepted votes of distinct voters
whose powers fit the word. -/
theorem count_eq_ok (hduplicate : rule.duplicate.isSome = true) {votes : List ν} {n : ℕ} :
    count rule votes = .ok n ↔
      (∀ vote ∈ votes, Accepted rule vote) ∧ (votes.map rule.voter).Nodup ∧
        n = (votes.map fun vote => powerOf rule (rule.voter vote)).sum ∧ n ≤ rule.top := by
  constructor
  · intro h
    obtain ⟨hnodup, -, hsum, hle⟩ := loop_distinct rule hduplicate h
    rw [zero_add] at hsum
    exact ⟨accepted_of_loop rule h, hnodup, hsum, hle (Nat.zero_le _)⟩
  · rintro ⟨haccepted, hnodup, rfl, htop⟩
    exact count_complete rule haccepted hnodup htop

/-- One accepted vote counts for its power. -/
theorem count_singleton {vote : ν} {power : ℕ} (hmatching : rule.matching vote = true)
    (hverify : rule.verify vote = .ok ()) (hpower : rule.power (rule.voter vote) = some power)
    (htop : power ≤ rule.top) : count rule [vote] = .ok power := by
  have hsum : checkedAdd rule.top 0 power = some power :=
    checkedAdd_eq_some.2 ⟨Nat.zero_add power, htop⟩
  simp only [count, loop, check_bind_eq_ok, reject_eq_ok, not_not]
  refine ⟨hmatching, hverify, ?_⟩
  simp only [bind_eq_ok, okOr_eq_ok]
  refine ⟨power, hpower, ?_⟩
  rw [if_neg List.not_mem_nil, bind_eq_ok]
  exact ⟨power, okOr_eq_ok.2 hsum, rfl⟩

end

end VoteTally
