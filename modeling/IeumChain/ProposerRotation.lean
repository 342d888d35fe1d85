import IeumChain.Library.RoundRobin
import IeumChain.Quorums
import IeumChain.StandIn
import IeumChain.ValidRounds
import Mathlib.Data.String.Basic

/-!
# The rotation of proposers

The proposer of a round is found in the sorted list of the validators by a counter, the height
and the round together. No call changes the validators, so that the proposers of consecutive
rounds, and of consecutive heights, take turns.
-/
namespace IeumChain

open Outcome MachineWords FiniteMap RoundRobin

namespace BftConsensus

/-! ## The validators of a machine -/

theorem validators_startRound (c : BftConsensus) (height round : ℕ) :
    (c.startRound height round).1.validators = c.validators := by
  unfold startRound
  split_ifs <;> rfl

section
variable [Crypto] {c c' : BftConsensus}

theorem validators_after (c : BftConsensus) (input : Input) :
    (c.after input).validators = c.validators := by
  cases input with
  | startRound height round => exact c.validators_startRound height round
  | propose proposer blockHash =>
      simp only [after, propose]
      cases c.checkPropose proposer blockHash <;> rfl
  | handleProposal p =>
      simp only [after]
      rcases c.handleProposal_cases p with ⟨c', e, hcase, hcore⟩ | ⟨-, -, -, hcase⟩
      · rw [hcase]
        exact hcore.validators
      · rw [hcase]
        exact (c.sameCore_noteValidRound p).validators
  | handle m =>
      simp only [after]
      rcases c.handle_cases m with ⟨c', e, hcase, hcore⟩ | ⟨-, -, c₁, hcore, hcase⟩
      · rw [hcase]
        exact hcore.validators
      · rw [hcase]
        exact ((c₁.addVote m).sameRound_advancePhase m).validators.trans hcore.validators
  | adoptValidValue blockHash validRound prevotes =>
      exact (c.sameCore_adoptValidValue blockHash validRound prevotes).validators
  | takeEvidence => rfl
  | onTimeout =>
      simp only [after, onTimeout]
      cases checkedAdd u32Max c.round 1 with
      | none => rfl
      | some next => exact c.validators_startRound _ _

theorem validators_run {allowed : BftConsensus → Input → Prop} (h : Run allowed c c') :
    c'.validators = c.validators := by
  induction h with
  | refl => rfl
  | tail _ hstep ih =>
      obtain ⟨input, -, rfl⟩ := hstep
      rw [validators_after, ih]

/-- The machine is in a round to which any calls have taken it. -/
structure Reached (c c' : BftConsensus) (height round : ℕ) : Prop where
  run : Run (fun _ _ => True) c c'
  height : c'.height = height
  round : c'.round = round

end

/-- A new machine is at the start, with the validators of the list under their identifiers. -/
theorem new_start {validators : List Validator} {c : BftConsensus} (h : new validators = .ok c) :
    c.height = 0 ∧ c.round = 0 ∧ c.validators.keys.Perm (validators.map (·.id)) := by
  simp only [new, check_bind_eq_ok] at h
  simp only [bind_eq_ok, pure_eq_ok] at h
  obtain ⟨-, map, hloop, rfl⟩ := h
  obtain ⟨-, hnodup, -, hlookup, hother, -⟩ := newLoop_spec hloop
  refine ⟨rfl, rfl, (List.perm_ext_iff_of_nodup map.keys_nodup hnodup).2 fun id => ?_⟩
  rw [← AList.mem_keys]
  constructor
  · intro hid
    by_contra hnot
    have hnone := hother id hnot
    rw [AList.lookup_empty, AList.lookup_eq_none] at hnone
    exact hnone hid
  · intro hid
    obtain ⟨v, hv, rfl⟩ := List.mem_map.1 hid
    exact AList.lookup_isSome.1 (by rw [hlookup v hv]; rfl)

/-! ## Windows of rounds and of heights -/

theorem expectedProposer_eq (c : BftConsensus) : c.expectedProposer =
    turn (c.validators.keys.insertionSort (· ≤ ·)) "" (c.height - 1 + c.round) := rfl

/-- Each validator proposes once in the window, and no index leaves the machine word. -/
structure Complete (validators : List Validator) (window : ℕ → BftConsensus) : Prop where
  fits : ∀ i < validators.length, (window i).height - 1 + (window i).round ≤ u64Max
  once : ((List.range validators.length).map fun i => (window i).expectedProposer).Perm
    (validators.map (·.id))

/-- Where the index counts up, all validators have their turn. -/
theorem complete_of_index {validators : List Validator} {c : BftConsensus}
    {window : ℕ → BftConsensus} (h : new validators = .ok c) (start : ℕ)
    (hwindow : ∀ i < validators.length, (window i).validators = c.validators)
    (hindex : ∀ i < validators.length, (window i).height - 1 + (window i).round = start + i)
    (hfits : start + validators.length ≤ 2 ^ 64) : Complete validators window := by
  obtain ⟨-, -, hkeys⟩ := new_start h
  have hids := (List.perm_insertionSort (· ≤ ·) c.validators.keys).trans hkeys
  have hlength : (c.validators.keys.insertionSort (· ≤ ·)).length = validators.length := by
    rw [hids.length_eq, List.length_map]
  have hturn : ((List.range validators.length).map fun i => (window i).expectedProposer) =
      (List.range validators.length).map fun i =>
        turn (c.validators.keys.insertionSort (· ≤ ·)) "" (start + i) := by
    refine List.map_congr_left fun i hi => ?_
    have hlt := List.mem_range.1 hi
    rw [expectedProposer_eq, hwindow i hlt, hindex i hlt]
  constructor
  · intro i hi
    have hword : u64Max + 1 = 2 ^ 64 := by decide
    rw [hindex i hi]
    omega
  · rw [hturn, ← hlength]
    exact (map_turn_perm _ _ start).trans hids

section
variable [Crypto]

/-- A new machine can be taken to any round. -/
theorem reached_startRound {validators : List Validator} {c : BftConsensus}
    (h : new validators = .ok c) (height round : ℕ) :
    Reached c (c.startRound height round).1 height round := by
  obtain ⟨hheight, hround, -⟩ := new_start h
  have hstart : c.startRound height round = (c.enterRound height round, .ok ()) :=
    startRound_of_le (by omega)
  constructor
  · exact .single ⟨.startRound height round, trivial, rfl⟩
  · rw [hstart]
    rfl
  · rw [hstart]
    rfl

/-- The proposers of consecutive rounds of a height, and of consecutive heights from the first
one on in a round, are all validators, each once. -/
theorem proposers_complete {validators : List Validator} {c : BftConsensus}
    (h : new validators = .ok c) :
    (validators.map (·.id)).Nodup ∧
      (∀ height round, ∃ c', Reached c c' height round) ∧
      (∀ (height round : ℕ) (window : ℕ → BftConsensus), height < 2 ^ 63 →
        round + validators.length < 2 ^ 32 →
        (∀ i < validators.length, Reached c (window i) height (round + i)) →
        Complete validators window) ∧
      ∀ (height round : ℕ) (window : ℕ → BftConsensus), 1 ≤ height → round < 2 ^ 32 →
        height + validators.length < 2 ^ 63 + 2 ^ 32 →
        (∀ i < validators.length, Reached c (window i) (height + i) round) →
        Complete validators window := by
  refine ⟨(new_spec h).1, ?_, ?_, ?_⟩
  · exact fun height round => ⟨_, reached_startRound h height round⟩
  · intro height round window hheight hround hreached
    refine complete_of_index h (height - 1 + round)
      (fun i hi => validators_run (hreached i hi).run) (fun i hi => ?_) (by omega)
    rw [(hreached i hi).height, (hreached i hi).round]
    omega
  · intro height round window hpos hround hheight hreached
    refine complete_of_index h (height - 1 + round)
      (fun i hi => validators_run (hreached i hi).run) (fun i hi => ?_) (by omega)
    rw [(hreached i hi).height, (hreached i hi).round]
    omega

end

/-- Two validators in two rounds of a height. -/
theorem proposers_complete_two : ∃ c, new [⟨"b", 2⟩, ⟨"a", 1⟩] = .ok c ∧
    ((List.range 2).map fun i => (c.startRound 7 (3 + i)).1.expectedProposer).Perm ["b", "a"] := by
  let crypto := StandIn.crypto StandIn.digest
  obtain ⟨c, hnew⟩ := @new_ok [⟨"b", 2⟩, ⟨"a", 1⟩] (List.cons_ne_nil _ _) (by decide) (by decide)
  obtain ⟨-, -, hrounds, -⟩ := proposers_complete hnew
  exact ⟨c, hnew, (hrounds 7 3 (fun i => (c.startRound 7 (3 + i)).1) (by decide) (by decide)
    fun i _ => reached_startRound hnew 7 (3 + i)).once⟩

end BftConsensus

end IeumChain
