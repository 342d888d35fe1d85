import Mathlib.Algebra.Order.BigOperators.Group.Finset
import Mathlib.Data.Nat.Notation

/-!
# Voting in rounds with locks

Voters move through heights and rounds. In a round a voter takes up at most one
proposal, prevotes it, locks it once a quorum has prevoted it, and then precommits
it. A locked voter takes up another proposal only if a quorum prevoted that proposal
in a round since the lock. The module states what each voter keeps true about its own
votes, and derives that two quorums of precommits at one height have the same value.

A voter's rounds may jump, and a round may be opened again after it ended in a lock.
Faulty voters are not modelled: every quorum statement asks only its honest members
for votes.
-/
namespace LockedVoting

inductive Kind
  | prevote
  | precommit
  deriving Repr, DecidableEq

structure Vote (X : Type) where
  kind : Kind
  height : ℕ
  round : ℕ
  value : X
  deriving Repr, DecidableEq

structure Voter (X : Type) where
  height : ℕ
  round : ℕ
  proposal : Option X
  locked : Option (X × ℕ)
  deriving Repr, DecidableEq

section Voter
variable {X : Type}

/-- Whether `x` is the value the voter has taken up in its current round. -/
def Voter.Holds (v : Voter X) (x : X) : Prop :=
  v.proposal = some x ∨ v.locked = some (x, v.round)

/-- One move of a voter, given the prevote quorums so far and the votes it has cast, with
the vote it casts in the move. -/
inductive Step (polka : ℕ → ℕ → X → Prop) (log : Vote X → Prop) :
    Voter X → Option (Vote X) → Voter X → Prop
  | freshHeight {v : Voter X} (height round : ℕ) (hfresh : ∀ w, log w → w.height < height) :
      Step polka log v none { height, round, proposal := none, locked := none }
  | nextRound {v : Voter X} (round : ℕ) (hround : v.round < round) :
      Step polka log v none { v with round, proposal := none }
  | reopen {v : Voter X} {x : X} (hlocked : v.locked = some (x, v.round)) :
      Step polka log v none { v with proposal := none }
  | accept {v : Voter X} {x : X} (hnone : v.proposal = none)
      (hlock : ∀ y l, v.locked = some (y, l) → y ≠ x →
        ∃ r, l ≤ r ∧ r < v.round ∧ polka v.height r x) :
      Step polka log v none { v with proposal := some x }
  | prevote {v : Voter X} {x : X} (hproposal : v.proposal = some x) :
      Step polka log v (some ⟨.prevote, v.height, v.round, x⟩) v
  | lock {v : Voter X} {x : X} (hproposal : v.proposal = some x)
      (hpolka : polka v.height v.round x) :
      Step polka log v none { v with locked := some (x, v.round) }
  | precommit {v : Voter X} {x : X} (hlocked : v.locked = some (x, v.round)) :
      Step polka log v (some ⟨.precommit, v.height, v.round, x⟩) v

/-- The votes cast so far, with one more. -/
def extend (log : Vote X → Prop) (cast : Option (Vote X)) : Vote X → Prop :=
  fun w => log w ∨ cast = some w

@[simp] theorem extend_none (log : Vote X → Prop) : extend log none = log := by
  funext w
  simp [extend]

theorem extend_mono {log : Vote X → Prop} {cast : Option (Vote X)} {w : Vote X} (h : log w) :
    extend log cast w := .inl h

/-- What a voter keeps true about its state and its own votes. -/
structure Consistent (polka : ℕ → ℕ → X → Prop) (log : Vote X → Prop) (v : Voter X) : Prop where
  past : ∀ w, log w → w.height < v.height ∨ w.height = v.height ∧ w.round ≤ v.round
  current : ∀ w, log w → w.height = v.height → w.round = v.round → v.Holds w.value
  single : ∀ x y, v.Holds x → v.Holds y → x = y
  lockRound : ∀ x l, v.locked = some (x, l) → l ≤ v.round
  lockPolka : ∀ x l, v.locked = some (x, l) → polka v.height l x
  lockCovers : ∀ w, log w → w.kind = .precommit → w.height = v.height →
    ∃ y l, v.locked = some (y, l) ∧ w.round ≤ l
  justified : ∀ x, v.Holds x → ∀ w, log w → w.kind = .precommit → w.height = v.height →
    w.round < v.round → w.value ≠ x →
    ∃ r, w.round ≤ r ∧ r < v.round ∧ polka v.height r x
  unique : ∀ w w', log w → log w' → w.height = w'.height → w.round = w'.round →
    w.value = w'.value
  precommitPolka : ∀ w, log w → w.kind = .precommit → polka w.height w.round w.value
  prevoteJustified : ∀ a b, log a → log b → a.kind = .precommit → b.kind = .prevote →
    a.height = b.height → a.round < b.round → a.value ≠ b.value →
    ∃ r, a.round ≤ r ∧ r < b.round ∧ polka b.height r b.value

/-- A voter without votes and without a lock is consistent. -/
theorem consistent_initial (polka : ℕ → ℕ → X → Prop) (height round : ℕ) :
    Consistent polka (fun _ => False) ⟨height, round, none, none⟩ := by
  constructor <;> simp [Voter.Holds]

variable {polka polka' : ℕ → ℕ → X → Prop} {log : Vote X → Prop} {v v' : Voter X}

/-- More prevote quorums keep a voter consistent. -/
theorem Consistent.mono (h : Consistent polka log v)
    (hle : ∀ height r x, polka height r x → polka' height r x) : Consistent polka' log v where
  past := h.past
  current := h.current
  single := h.single
  lockRound := h.lockRound
  lockPolka x l hl := hle _ _ _ (h.lockPolka x l hl)
  lockCovers := h.lockCovers
  justified x hx w hw hk hh hr hne := by
    obtain ⟨r, h₁, h₂, h₃⟩ := h.justified x hx w hw hk hh hr hne
    exact ⟨r, h₁, h₂, hle _ _ _ h₃⟩
  unique := h.unique
  precommitPolka w hw hk := hle _ _ _ (h.precommitPolka w hw hk)
  prevoteJustified a b ha hb hka hkb hh hr hne := by
    obtain ⟨r, h₁, h₂, h₃⟩ := h.prevoteJustified a b ha hb hka hkb hh hr hne
    exact ⟨r, h₁, h₂, hle _ _ _ h₃⟩

/-- A value taken up now is justified against every earlier precommit: either it is the
locked value, whose lock quorum lies in between, or the lock rule names a quorum. -/
theorem Consistent.justify_accept (h : Consistent polka log v) {x : X}
    (hlock : ∀ y l, v.locked = some (y, l) → y ≠ x →
      ∃ r, l ≤ r ∧ r < v.round ∧ polka v.height r x) (w : Vote X) (hw : log w)
    (hk : w.kind = .precommit) (hh : w.height = v.height) (hr : w.round < v.round)
    (hne : w.value ≠ x) : ∃ r, w.round ≤ r ∧ r < v.round ∧ polka v.height r x := by
  obtain ⟨y, l, hl, hwl⟩ := h.lockCovers w hw hk hh
  by_cases hyx : y = x
  · subst hyx
    rcases Nat.lt_or_ge l v.round with hlt | hge
    · exact ⟨l, hwl, hlt, h.lockPolka y l hl⟩
    · -- a lock of the current round: the value was taken up before the round was reopened
      have hround : l = v.round := le_antisymm (h.lockRound y l hl) hge
      exact h.justified y (.inr (hround ▸ hl)) w hw hk hh hr hne
  · obtain ⟨r, hlr, hrr, hp⟩ := hlock y l hl hyx
    exact ⟨r, hwl.trans hlr, hrr, hp⟩

/-- A voter that holds the value of a vote may cast it: every field that speaks about cast
votes is established for the new one. -/
theorem Consistent.cast (h : Consistent polka log v) {x : X} {kind : Kind} (hx : v.Holds x)
    (hkind : kind = .precommit → v.locked = some (x, v.round)) :
    Consistent polka (extend log (some ⟨kind, v.height, v.round, x⟩)) v where
  past w hw := by
    rcases hw with hw | hw
    · exact h.past w hw
    · cases hw
      exact .inr ⟨rfl, le_refl _⟩
  current w hw hh hr := by
    rcases hw with hw | hw
    · exact h.current w hw hh hr
    · cases hw
      exact hx
  single := h.single
  lockRound := h.lockRound
  lockPolka := h.lockPolka
  lockCovers w hw hk hh := by
    rcases hw with hw | hw
    · exact h.lockCovers w hw hk hh
    · cases hw
      exact ⟨x, v.round, hkind hk, le_refl _⟩
  justified y hy w hw hk hh hr hne := by
    rcases hw with hw | hw
    · exact h.justified y hy w hw hk hh hr hne
    · cases hw
      exact absurd hr (lt_irrefl _)
  unique w w' hw hw' hh hr := by
    rcases hw with hw | hw <;> rcases hw' with hw' | hw'
    · exact h.unique w w' hw hw' hh hr
    · cases hw'
      exact h.single _ _ (h.current w hw hh hr) hx
    · cases hw
      exact h.single _ _ hx (h.current w' hw' hh.symm hr.symm)
    · cases hw
      cases hw'
      rfl
  precommitPolka w hw hk := by
    rcases hw with hw | hw
    · exact h.precommitPolka w hw hk
    · cases hw
      exact h.lockPolka x v.round (hkind hk)
  prevoteJustified a b ha hb hka hkb hh hr hne := by
    rcases hb with hb | hb
    · rcases ha with ha | ha
      · exact h.prevoteJustified a b ha hb hka hkb hh hr hne
      · -- no vote of a later round than the current one exists
        cases ha
        simp only at hh hr
        rcases h.past b hb with hlt | ⟨-, hle⟩ <;> omega
    · cases hb
      rcases ha with ha | ha
      · exact h.justified x hx a ha hka hh hr hne
      · cases ha
        exact absurd hr (lt_irrefl _)

/-- Every move keeps the voter consistent. -/
theorem Consistent.step (h : Consistent polka log v) {cast : Option (Vote X)}
    (hstep : Step polka log v cast v') : Consistent polka (extend log cast) v' := by
  cases hstep with
  | freshHeight height round hfresh =>
      rw [extend_none]
      refine ⟨fun w hw => .inl (hfresh w hw), ?_, by simp [Voter.Holds], by simp, by simp, ?_,
        by simp [Voter.Holds], h.unique, h.precommitPolka, h.prevoteJustified⟩
      · intro w hw hh
        exact absurd hh (hfresh w hw).ne
      · intro w hw _ hh
        exact absurd hh (hfresh w hw).ne
  | nextRound round hround =>
      rw [extend_none]
      have hpast : ∀ w, log w → w.height < v.height ∨ w.height = v.height ∧ w.round < round := by
        intro w hw
        rcases h.past w hw with hlt | ⟨heq, hle⟩
        · exact .inl hlt
        · exact .inr ⟨heq, hle.trans_lt hround⟩
      have hholds : ∀ x, ¬({ v with round, proposal := none } : Voter X).Holds x := by
        rintro x (hx | hx)
        · cases hx
        · exact absurd (h.lockRound x round hx) (not_le.2 hround)
      refine ⟨?_, ?_, fun x y hx => absurd hx (hholds x), ?_, h.lockPolka, h.lockCovers,
        fun x hx => absurd hx (hholds x), h.unique, h.precommitPolka, h.prevoteJustified⟩
      · intro w hw
        rcases hpast w hw with hlt | ⟨heq, hlt⟩
        · exact .inl hlt
        · exact .inr ⟨heq, hlt.le⟩
      · intro w hw hh hr
        rcases hpast w hw with hlt | ⟨-, hlt⟩
        · exact absurd hh hlt.ne
        · exact absurd hr hlt.ne
      · intro x l hl
        exact (h.lockRound x l hl).trans hround.le
  | reopen hlocked =>
      rename_i x
      rw [extend_none]
      have hheld : v.Holds x := .inr hlocked
      have hholds : ∀ y, ({ v with proposal := none } : Voter X).Holds y → v.Holds y := by
        rintro y (hy | hy)
        · cases hy
        · exact .inr hy
      refine ⟨h.past, ?_, fun y z hy hz => h.single y z (hholds y hy) (hholds z hz), h.lockRound,
        h.lockPolka, h.lockCovers, fun y hy => h.justified y (hholds y hy), h.unique,
        h.precommitPolka, h.prevoteJustified⟩
      intro w hw hh hr
      rw [h.single _ _ (h.current w hw hh hr) hheld]
      exact .inr hlocked
  | accept hnone hlock =>
      rename_i x
      rw [extend_none]
      have hheld : ∀ y, v.Holds y → y = x := by
        rintro y (hy | hy)
        · rw [hnone] at hy
          cases hy
        · by_contra hne
          obtain ⟨r, hle, hlt, -⟩ := hlock y v.round hy hne
          omega
      have hholds : ∀ y, ({ v with proposal := some x } : Voter X).Holds y → y = x := by
        rintro y (hy | hy)
        · cases hy
          rfl
        · exact hheld y (.inr hy)
      refine ⟨h.past, ?_, fun y z hy hz => (hholds y hy).trans (hholds z hz).symm, h.lockRound,
        h.lockPolka, h.lockCovers, ?_, h.unique, h.precommitPolka, h.prevoteJustified⟩
      · intro w hw hh hr
        exact .inl (by rw [hheld _ (h.current w hw hh hr)])
      · intro y hy
        rw [hholds y hy]
        exact h.justify_accept hlock
  | prevote hproposal =>
      exact h.cast (.inl hproposal) (fun hk => absurd hk (by simp))
  | lock hproposal hpolka =>
      rename_i x
      rw [extend_none]
      have hheld : v.Holds x := .inl hproposal
      have hholds : ∀ y, ({ v with locked := some (x, v.round) } : Voter X).Holds y → y = x := by
        rintro y (hy | hy)
        · exact h.single _ _ (.inl hy) hheld
        · cases hy
          rfl
      refine ⟨h.past, ?_, fun y z hy hz => (hholds y hy).trans (hholds z hz).symm, ?_, ?_, ?_, ?_,
        h.unique, h.precommitPolka, h.prevoteJustified⟩
      · intro w hw hh hr
        rw [h.single _ _ (h.current w hw hh hr) hheld]
        exact .inl hproposal
      · rintro y l ⟨⟩
        exact le_refl _
      · rintro y l ⟨⟩
        exact hpolka
      · intro w hw hk hh
        obtain ⟨y, l, hl, hle⟩ := h.lockCovers w hw hk hh
        exact ⟨x, v.round, rfl, hle.trans (h.lockRound y l hl)⟩
      · intro y hy
        rw [hholds y hy]
        exact h.justified x hheld
  | precommit hlocked =>
      exact h.cast (.inr hlocked) (fun _ => hlocked)

/-- Any number of moves, with all votes cast on the way. -/
inductive Steps (polka : ℕ → ℕ → X → Prop) :
    (Vote X → Prop) → Voter X → (Vote X → Prop) → Voter X → Prop
  | refl {log : Vote X → Prop} {v : Voter X} : Steps polka log v log v
  | tail {log log' : Vote X → Prop} {v v' v'' : Voter X} {cast : Option (Vote X)}
      (h : Steps polka log v log' v') (hstep : Step polka log' v' cast v'') :
      Steps polka log v (extend log' cast) v''

theorem Steps.trans {log log' log'' : Vote X → Prop} {v v' v'' : Voter X}
    (h : Steps polka log v log' v') (h' : Steps polka log' v' log'' v'') :
    Steps polka log v log'' v'' := by
  induction h' with
  | refl => exact h
  | tail _ hstep ih => exact .tail (ih h) hstep

theorem Steps.one {cast : Option (Vote X)} (hstep : Step polka log v cast v') :
    Steps polka log v (extend log cast) v' := .tail .refl hstep

theorem Steps.log_mono {log' : Vote X → Prop} (h : Steps polka log v log' v') (w : Vote X)
    (hw : log w) : log' w := by
  induction h with
  | refl => exact hw
  | tail _ _ ih => exact extend_mono ih

/-- A run of moves keeps the voter consistent. -/
theorem Consistent.steps (h : Consistent polka log v) {log' : Vote X → Prop}
    (hsteps : Steps polka log v log' v') : Consistent polka log' v' := by
  induction hsteps with
  | refl => exact h
  | tail _ hstep ih => exact (ih h).step hstep

end Voter

/-! ## Quorums -/

/-- Weighted voters of whom the faulty ones hold less than a third. -/
structure Committee (P : Type) where
  members : Finset P
  power : P → ℕ
  Honest : P → Prop
  faultyPower : ∀ F ⊆ members, (∀ p ∈ F, ¬Honest p) →
    3 * ∑ p ∈ F, power p < ∑ p ∈ members, power p

namespace Committee

variable {P X : Type} (C : Committee P)

def total : ℕ := ∑ p ∈ C.members, C.power p

/-- More than two thirds of the power. -/
def Quorum (Q : Finset P) : Prop :=
  Q ⊆ C.members ∧ 2 * C.total < 3 * ∑ p ∈ Q, C.power p

/-- Two quorums have an honest member in common. -/
theorem exists_honest_mem [DecidableEq P] {Q₁ Q₂ : Finset P} (h₁ : C.Quorum Q₁)
    (h₂ : C.Quorum Q₂) : ∃ p, p ∈ Q₁ ∧ p ∈ Q₂ ∧ C.Honest p := by
  by_contra hnone
  push Not at hnone
  have hsub : Q₁ ∪ Q₂ ⊆ C.members := Finset.union_subset h₁.1 h₂.1
  have hunion : ∑ p ∈ Q₁ ∪ Q₂, C.power p ≤ C.total := Finset.sum_le_sum_of_subset hsub
  have hinter : ∑ p ∈ Q₁ ∪ Q₂, C.power p + ∑ p ∈ Q₁ ∩ Q₂, C.power p =
      ∑ p ∈ Q₁, C.power p + ∑ p ∈ Q₂, C.power p := Finset.sum_union_inter
  have hfaulty := C.faultyPower (Q₁ ∩ Q₂) (Finset.inter_subset_left.trans h₁.1) (by
    intro p hp
    rw [Finset.mem_inter] at hp
    exact hnone p hp.1 hp.2)
  have hq₁ := h₁.2
  have hq₂ := h₂.2
  simp only [total] at hunion hq₁ hq₂
  omega

/-- A quorum whose honest members have all cast the vote. -/
def Supported (log : P → Vote X → Prop) (w : Vote X) : Prop :=
  ∃ Q, C.Quorum Q ∧ ∀ p ∈ Q, C.Honest p → log p w

def Polka (log : P → Vote X → Prop) (height round : ℕ) (x : X) : Prop :=
  C.Supported log ⟨.prevote, height, round, x⟩

def Decided (log : P → Vote X → Prop) (height : ℕ) (x : X) : Prop :=
  ∃ round, C.Supported log ⟨.precommit, height, round, x⟩

theorem Supported.mono {C : Committee P} {log log' : P → Vote X → Prop} {w : Vote X}
    (h : C.Supported log w) (hle : ∀ p w, log p w → log' p w) : C.Supported log' w := by
  obtain ⟨Q, hQ, hvotes⟩ := h
  exact ⟨Q, hQ, fun p hp hhonest => hle p w (hvotes p hp hhonest)⟩

variable {C} {log : P → Vote X → Prop} {voters : P → Voter X}

/-- Every honest voter is consistent with the quorums that exist. -/
def Safe (C : Committee P) (log : P → Vote X → Prop) (voters : P → Voter X) : Prop :=
  ∀ p, C.Honest p → Consistent (C.Polka log) (log p) (voters p)

/-- Moves of one honest voter keep everybody consistent. -/
theorem Safe.steps [DecidableEq P] (h : Safe C log voters) {p : P} {log' : Vote X → Prop}
    {v' : Voter X} (hsteps : Steps (C.Polka log) (log p) (voters p) log' v') :
    Safe C (Function.update log p log') (Function.update voters p v') := by
  have hgrow : ∀ q w, log q w → Function.update log p log' q w := by
    intro q w hw
    by_cases hq : q = p
    · subst hq
      rw [Function.update_self]
      exact hsteps.log_mono w hw
    · rwa [Function.update_of_ne hq]
  have hpolka : ∀ height r x, C.Polka log height r x →
      C.Polka (Function.update log p log') height r x :=
    fun _ _ _ hx => hx.mono hgrow
  intro q hq
  by_cases hqp : q = p
  · subst hqp
    rw [Function.update_self, Function.update_self]
    exact ((h q hq).steps hsteps).mono hpolka
  · rw [Function.update_of_ne hqp, Function.update_of_ne hqp]
    exact (h q hq).mono hpolka

theorem Safe.polka_unique [DecidableEq P] (h : Safe C log voters) {height round : ℕ} {x y : X}
    (hx : C.Polka log height round x) (hy : C.Polka log height round y) : x = y := by
  obtain ⟨Q₁, hQ₁, hvotes₁⟩ := hx
  obtain ⟨Q₂, hQ₂, hvotes₂⟩ := hy
  obtain ⟨p, hp₁, hp₂, hhonest⟩ := C.exists_honest_mem hQ₁ hQ₂
  exact (h p hhonest).unique _ _ (hvotes₁ p hp₁ hhonest) (hvotes₂ p hp₂ hhonest) rfl rfl

theorem Safe.polka_of_precommits [DecidableEq P] (h : Safe C log voters) {height round : ℕ}
    {x : X} (hx : C.Supported log ⟨.precommit, height, round, x⟩) :
    C.Polka log height round x := by
  obtain ⟨Q, hQ, hvotes⟩ := hx
  obtain ⟨p, hp, -, hhonest⟩ := C.exists_honest_mem hQ hQ
  exact (h p hhonest).precommitPolka _ (hvotes p hp hhonest) rfl

/-- Once a quorum has precommitted a value, no later round has a prevote quorum for another. -/
theorem Safe.polka_after_precommits [DecidableEq P] (h : Safe C log voters)
    {height round₀ : ℕ} {x : X} (hx : C.Supported log ⟨.precommit, height, round₀, x⟩) :
    ∀ round y, round₀ ≤ round → C.Polka log height round y → y = x := by
  intro round
  induction round using Nat.strong_induction_on with
  | _ round ih =>
      intro y hle hy
      rcases hle.eq_or_lt with rfl | hlt
      · exact h.polka_unique hy (h.polka_of_precommits hx)
      · by_contra hne
        obtain ⟨Q₁, hQ₁, hprecommits⟩ := hx
        obtain ⟨Q₂, hQ₂, hprevotes⟩ := hy
        obtain ⟨p, hp₁, hp₂, hhonest⟩ := C.exists_honest_mem hQ₁ hQ₂
        obtain ⟨r, hr₀, hr, hpolka⟩ := (h p hhonest).prevoteJustified _ _
          (hprecommits p hp₁ hhonest) (hprevotes p hp₂ hhonest) rfl rfl rfl hlt (Ne.symm hne)
        exact hne (ih r hr y hr₀ hpolka)

/-- Two decisions at one height have the same value. -/
theorem Safe.agreement [DecidableEq P] (h : Safe C log voters) {height : ℕ} {x y : X}
    (hx : C.Decided log height x) (hy : C.Decided log height y) : x = y := by
  obtain ⟨r₁, h₁⟩ := hx
  obtain ⟨r₂, h₂⟩ := hy
  rcases Nat.le_total r₁ r₂ with hle | hle
  · exact (h.polka_after_precommits h₁ r₂ y hle (h.polka_of_precommits h₂)).symm
  · exact h.polka_after_precommits h₂ r₁ x hle (h.polka_of_precommits h₁)

end Committee

end LockedVoting
