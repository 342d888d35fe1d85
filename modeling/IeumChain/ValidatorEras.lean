import IeumChain.Library.FiniteMap
import IeumChain.Library.MachineWords
import IeumChain.Library.Outcome
import IeumChain.Model
import Mathlib.Data.List.Sort
import Mathlib.Logic.Relation

/-!
# Eras of validator sets

A requested set becomes active at the next era boundary after a delay. Every call for a height
activates the earliest pending set that is due, and only that one.
-/
namespace IeumChain

open Outcome MachineWords FiniteMap

structure EraConfig where
  eraLength : ℕ
  activationDelay : ℕ
  deriving Repr, DecidableEq

def EraConfig.default : EraConfig := { eraLength := 10000, activationDelay := 100 }

structure ValidatorSetUpdate where
  requestedHeight : ℕ
  activationHeight : ℕ
  validators : List Validator
  deriving Repr, DecidableEq

structure EraManager where
  config : EraConfig
  active : List Validator
  pending : HashMap ℕ ValidatorSetUpdate

/-- Division rounded up. -/
def divCeil (a b : ℕ) : ℕ := if 0 < a % b then a / b + 1 else a / b

namespace EraManager

def validateSet (validators : List Validator) : Except String Unit := do
  reject (validators.length < 4) "BFT 검증자 세트는 최소 4개여야 합니다."
  reject ((∃ v ∈ validators, v.votingPower = 0) ∨ ¬(validators.map (·.id)).Nodup)
    "검증자 ID는 고유해야 하고 투표권은 1 이상이어야 합니다."

def new (config : EraConfig) (validators : List Validator) : Except String EraManager := do
  validateSet validators
  reject (config.eraLength = 0 ∨ config.activationDelay = 0)
    "era 길이와 활성화 지연은 1 이상이어야 합니다."
  pure { config, active := validators, pending := ∅ }

/-- The manager with the update, and its activation height. -/
def schedule (m : EraManager) (requestedHeight : ℕ) (validators : List Validator) :
    Except String (EraManager × ℕ) := do
  validateSet validators
  let earliest ← okOr (checkedAdd u64Max requestedHeight m.config.activationDelay)
    "검증자 세트 활성화 높이가 범위를 넘었습니다."
  let activation := saturatingMul u64Max (divCeil earliest m.config.eraLength) m.config.eraLength
  let update := { requestedHeight, activationHeight := activation, validators }
  pure ({ m with pending := m.pending.insert activation update }, activation)

/-- Keys are visited in ascending order. -/
def applyHeight (m : EraManager) (height : ℕ) : EraManager × Option ValidatorSetUpdate :=
  match (m.pending.keys.insertionSort (· ≤ ·)).find? (· ≤ height) with
  | none => (m, none)
  | some activation =>
      match m.pending.lookup activation with
      | none => (m, none)
      | some update =>
          ({ m with active := update.validators, pending := m.pending.erase activation },
            some update)

end EraManager

/-! ## One call -/

namespace EraManager

variable {m m' : EraManager}

theorem schedule_eq_ok {requestedHeight activation : ℕ} {validators : List Validator} :
    m.schedule requestedHeight validators = .ok (m', activation) ↔
      validateSet validators = .ok () ∧ requestedHeight + m.config.activationDelay ≤ u64Max ∧
      activation = min (divCeil (requestedHeight + m.config.activationDelay) m.config.eraLength *
        m.config.eraLength) u64Max ∧
      m' = { m with
        pending := m.pending.insert activation ⟨requestedHeight, activation, validators⟩ } := by
  simp only [schedule, check_bind_eq_ok]
  simp only [bind_eq_ok, okOr_eq_ok, checkedAdd_eq_some, pure_eq_ok, Prod.mk.injEq]
  refine and_congr_right fun _ => ?_
  constructor
  · rintro ⟨_, ⟨rfl, hfits⟩, rfl, rfl⟩
    exact ⟨hfits, rfl, rfl⟩
  · rintro ⟨hfits, rfl, rfl⟩
    exact ⟨_, ⟨rfl, hfits⟩, rfl, rfl⟩

/-- The earliest pending update that is due becomes active, if there is one. -/
theorem applyHeight_cases (m : EraManager) (height : ℕ) :
    (∃ activation update, m.pending.lookup activation = some update ∧ activation ≤ height ∧
      (∀ a ∈ m.pending, a ≤ height → activation ≤ a) ∧
      m.applyHeight height = ({ m with
        active := update.validators, pending := m.pending.erase activation }, some update)) ∨
    (∀ a ∈ m.pending, height < a) ∧ m.applyHeight height = (m, none) := by
  have hsorted : (m.pending.keys.insertionSort (· ≤ ·)).Pairwise (· ≤ ·) :=
    List.pairwise_insertionSort _ _
  have hmem : ∀ a, a ∈ m.pending.keys.insertionSort (· ≤ ·) ↔ a ∈ m.pending := fun a =>
    (List.perm_insertionSort _ _).mem_iff.trans AList.mem_keys.symm
  cases hfind : (m.pending.keys.insertionSort (· ≤ ·)).find? (· ≤ height) with
  | none =>
      refine .inr ⟨fun a ha => ?_, by simp only [applyHeight, hfind]⟩
      simpa using List.find?_eq_none.1 hfind a ((hmem a).2 ha)
  | some activation =>
      obtain ⟨hdue, early, late, hsplit, hearly⟩ := List.find?_eq_some_iff_append.1 hfind
      have hpending : activation ∈ m.pending := (hmem activation).1 (by simp [hsplit])
      obtain ⟨update, hupdate⟩ := Option.isSome_iff_exists.1 (AList.lookup_isSome.2 hpending)
      refine .inl ⟨activation, update, hupdate, of_decide_eq_true hdue, fun a ha hle => ?_,
        by simp only [applyHeight, hfind, hupdate]⟩
      rw [hsplit, List.pairwise_append, List.pairwise_cons] at hsorted
      rcases List.mem_append.1 (hsplit ▸ (hmem a).2 ha) with ha | ha
      · exact absurd hle (by simpa using hearly a ha)
      · rcases List.mem_cons.1 ha with rfl | ha
        · exact le_rfl
        · exact hsorted.2.1.1 a ha

theorem le_divCeil_mul {a b : ℕ} (hb : 0 < b) : a ≤ divCeil a b * b := by
  have hdiv := Nat.div_add_mod' a b
  unfold divCeil
  split_ifs with hrest
  · have hlt := Nat.mod_lt a hb
    rw [Nat.add_mul]
    omega
  · omega

/-- No multiple that is large enough is smaller. -/
theorem divCeil_mul_le {a b c : ℕ} (hb : 0 < b) (h : a ≤ c * b) : divCeil a b * b ≤ c * b := by
  refine Nat.mul_le_mul_right b ?_
  unfold divCeil
  split_ifs with hrest
  · have hdiv := Nat.div_add_mod' a b
    exact (Nat.mul_lt_mul_right hb).1 (by omega)
  · exact Nat.div_le_of_le_mul (by rwa [Nat.mul_comm])

/-- The boundary is one exactly if it fits the word; it is never too early. -/
theorem activation_iff {earliest eraLength : ℕ} (hlength : 0 < eraLength) :
    (eraLength ∣ min (divCeil earliest eraLength * eraLength) u64Max ∧
      earliest ≤ min (divCeil earliest eraLength * eraLength) u64Max) ↔
      divCeil earliest eraLength * eraLength ≤ u64Max := by
  have hle := le_divCeil_mul (a := earliest) hlength
  constructor
  · rintro ⟨⟨count, hcount⟩, hlate⟩
    rw [hcount, Nat.mul_comm eraLength] at hlate
    have hround := divCeil_mul_le hlength hlate
    rw [Nat.mul_comm count, ← hcount] at hround
    exact hround.trans (min_le_right _ _)
  · intro hfits
    rw [min_eq_left hfits]
    exact ⟨Nat.dvd_mul_left _ _, hle⟩

end EraManager

/-! ## Runs -/

inductive EraCall
  | schedule (requestedHeight : ℕ) (validators : List Validator)
  | applyHeight (height : ℕ)

/-- A manager with the updates it has accepted and the last height it was called for. -/
structure EraRun where
  manager : EraManager
  scheduled : List ValidatorSetUpdate
  height : ℕ

namespace EraRun

def start (m : EraManager) : EraRun := { manager := m, scheduled := [], height := 0 }

/-- An accepted update has an activation height of its own; heights do not decrease. -/
inductive Step : EraRun → EraCall → EraRun → Prop
  | schedule {r : EraRun} {requestedHeight activation : ℕ} {validators : List Validator}
      {m : EraManager}
      (haccepted : r.manager.schedule requestedHeight validators = .ok (m, activation))
      (hnew : ∀ u ∈ r.scheduled, u.activationHeight ≠ activation) :
      Step r (.schedule requestedHeight validators) { r with
        manager := m
        scheduled := ⟨requestedHeight, activation, validators⟩ :: r.scheduled }
  | refused {r : EraRun} {requestedHeight : ℕ} {validators : List Validator} {e : String}
      (hrefused : r.manager.schedule requestedHeight validators = .error e) :
      Step r (.schedule requestedHeight validators) r
  | applyHeight {r : EraRun} {height : ℕ} (hheight : r.height ≤ height) :
      Step r (.applyHeight height)
        { r with manager := (r.manager.applyHeight height).1, height }

/-- The validators of the scheduled update with the greatest activation height that is due, or
the initial ones while none is. -/
def LatestDue (initial : List Validator) (scheduled : List ValidatorSetUpdate) (height : ℕ)
    (active : List Validator) : Prop :=
  (∃ u ∈ scheduled, u.activationHeight ≤ height ∧ active = u.validators ∧
    ∀ w ∈ scheduled, w.activationHeight ≤ height → w.activationHeight ≤ u.activationHeight) ∨
  (∀ u ∈ scheduled, height < u.activationHeight) ∧ active = initial

/-- Accepted and no longer pending. -/
def Applied (r : EraRun) (u : ValidatorSetUpdate) : Prop :=
  u ∈ r.scheduled ∧ u.activationHeight ∉ r.manager.pending

/-- The boundary of a request fits the word. A call for a height finds at most one update that is
due, and that one is later than all that were applied. -/
def Timely (r : EraRun) : EraCall → Prop
  | .schedule requestedHeight _ =>
      divCeil (requestedHeight + r.manager.config.activationDelay) r.manager.config.eraLength *
        r.manager.config.eraLength ≤ u64Max
  | .applyHeight height =>
      ∀ a ∈ r.manager.pending, a ≤ height →
        (∀ b ∈ r.manager.pending, b ≤ height → b = a) ∧
        ∀ u, r.Applied u → u.activationHeight < a

/-- A run all of whose calls are timely. -/
def TimelyRun : EraRun → EraRun → Prop :=
  Relation.ReflTransGen fun r r' => ∃ call, r.Step call r' ∧ r.Timely call

structure Inv (config : EraConfig) (initial : List Validator) (r : EraRun) : Prop where
  config : r.manager.config = config
  pending : ∀ a u, r.manager.pending.lookup a = some u → u ∈ r.scheduled ∧ u.activationHeight = a
  applied : ∀ u, r.Applied u → u.activationHeight ≤ r.height
  active : (∃ u, r.Applied u ∧ r.manager.active = u.validators ∧
      ∀ w, r.Applied w → w.activationHeight ≤ u.activationHeight) ∨
    (∀ u, ¬r.Applied u) ∧ r.manager.active = initial

section
variable {config : EraConfig} {initial : List Validator} {r r' : EraRun}

theorem inv_start {m : EraManager} (h : EraManager.new config initial = .ok m) :
    Inv config initial (start m) := by
  simp only [EraManager.new, check_bind_eq_ok, pure_eq_ok] at h
  obtain ⟨-, -, rfl⟩ := h
  refine ⟨rfl, fun a u hu => ?_, fun u hu => ?_, .inr ⟨fun u hu => ?_, rfl⟩⟩
  · cases hu
  · exact absurd hu.1 List.not_mem_nil
  · exact absurd hu.1 List.not_mem_nil

theorem Inv.schedule (h : Inv config initial r) {requestedHeight activation : ℕ}
    {validators : List Validator} {m : EraManager}
    (haccepted : r.manager.schedule requestedHeight validators = .ok (m, activation))
    (hnew : ∀ u ∈ r.scheduled, u.activationHeight ≠ activation) :
    Inv config initial { r with
      manager := m
      scheduled := ⟨requestedHeight, activation, validators⟩ :: r.scheduled } := by
  obtain ⟨-, -, -, rfl⟩ := EraManager.schedule_eq_ok.1 haccepted
  -- what is applied is the same: the new update is pending under a key of its own
  have happlied : ∀ u, Applied { r with
      manager := { r.manager with
        pending := r.manager.pending.insert activation ⟨requestedHeight, activation, validators⟩ }
      scheduled := ⟨requestedHeight, activation, validators⟩ :: r.scheduled } u ↔
        r.Applied u := by
    intro u
    simp only [Applied, List.mem_cons, AList.mem_insert, not_or]
    constructor
    · rintro ⟨rfl | hu, hne, hpending⟩
      · exact absurd rfl hne
      · exact ⟨hu, hpending⟩
    · rintro ⟨hu, hpending⟩
      exact ⟨.inr hu, hnew u hu, hpending⟩
  refine ⟨h.config, fun a u hu => ?_, fun u hu => h.applied u ((happlied u).1 hu), ?_⟩
  · by_cases ha : a = activation
    · subst ha
      rw [AList.lookup_insert, Option.some.injEq] at hu
      subst hu
      exact ⟨List.mem_cons_self .., rfl⟩
    · rw [AList.lookup_insert_ne ha] at hu
      exact ⟨List.mem_cons_of_mem _ (h.pending a u hu).1, (h.pending a u hu).2⟩
  · simpa only [happlied] using h.active

/-- After a timely call nothing that is pending is due. -/
theorem Inv.applyHeight (h : Inv config initial r) {height : ℕ} (hheight : r.height ≤ height)
    (htimely : r.Timely (.applyHeight height)) :
    Inv config initial { r with manager := (r.manager.applyHeight height).1, height } ∧
      ∀ a ∈ (r.manager.applyHeight height).1.pending, height < a := by
  rcases r.manager.applyHeight_cases height with
    ⟨activation, update, hupdate, hdue, -, heq⟩ | ⟨hnone, heq⟩
  · have hpending : activation ∈ r.manager.pending :=
      AList.lookup_isSome.1 (by rw [hupdate]; rfl)
    obtain ⟨honly, hlater⟩ := htimely activation hpending hdue
    obtain ⟨hscheduled, hactivation⟩ := h.pending activation update hupdate
    rw [heq]
    have happlied : ∀ u, Applied { r with
        manager := { r.manager with
          active := update.validators, pending := r.manager.pending.erase activation }
        height } u ↔ u ∈ r.scheduled ∧ u.activationHeight = activation ∨ r.Applied u := by
      intro u
      simp only [Applied, AList.mem_erase, not_and_or, not_not]
      tauto
    refine ⟨⟨h.config, fun a u hu => ?_, fun u hu => ?_, .inl ⟨update, ?_, rfl, fun w hw => ?_⟩⟩,
      fun a ha => ?_⟩
    · by_cases ha : a = activation
      · subst ha
        rw [AList.lookup_erase] at hu
        cases hu
      · rw [AList.lookup_erase_ne ha] at hu
        exact h.pending a u hu
    · rcases (happlied u).1 hu with ⟨-, hu⟩ | hu
      · exact hu.trans_le hdue
      · exact (h.applied u hu).trans hheight
    · exact (happlied update).2 (.inl ⟨hscheduled, hactivation⟩)
    · rw [hactivation]
      rcases (happlied w).1 hw with ⟨-, hw⟩ | hw
      · exact hw.le
      · exact (hlater w hw).le
    · obtain ⟨hne, ha⟩ := AList.mem_erase.1 ha
      exact not_le.1 fun hle => hne (honly a ha hle)
  · rw [heq]
    exact ⟨⟨h.config, h.pending, fun u hu => (h.applied u hu).trans hheight, h.active⟩, hnone⟩

theorem Inv.step (h : Inv config initial r) {call : EraCall} (hstep : r.Step call r')
    (htimely : r.Timely call) : Inv config initial r' := by
  cases hstep with
  | schedule haccepted hnew => exact h.schedule haccepted hnew
  | refused => exact h
  | applyHeight hheight => exact (h.applyHeight hheight htimely).1

theorem Inv.run (h : Inv config initial r) (hrun : TimelyRun r r') : Inv config initial r' := by
  induction hrun with
  | refl => exact h
  | tail _ hlast ih =>
      obtain ⟨call, hstep, htimely⟩ := hlast
      exact ih.step hstep htimely

/-- With nothing due left, the last one applied is the latest one due. -/
theorem Inv.latestDue (h : Inv config initial r)
    (hdone : ∀ a ∈ r.manager.pending, r.height < a) :
    LatestDue initial r.scheduled r.height r.manager.active := by
  have hdue : ∀ u ∈ r.scheduled, u.activationHeight ≤ r.height → r.Applied u :=
    fun u hu hle => ⟨hu, fun hpending => (hdone _ hpending).not_ge hle⟩
  rcases h.active with ⟨u, hu, hactive, hmax⟩ | ⟨hnone, hactive⟩
  · exact .inl ⟨u, hu.1, h.applied u hu, hactive, fun w hw hle => hmax w (hdue w hw hle)⟩
  · exact .inr ⟨fun u hu => not_le.1 fun hle => hnone u (hdue u hu hle), hactive⟩

/-- In a run of timely calls the active set is the latest one due after every call for a height,
and every activation height is an era boundary that leaves the delay. A request that is not
timely gets a height that is no boundary. -/
theorem latest_due_active {m : EraManager} (hconfig : EraManager.new config initial = .ok m)
    (hrun : TimelyRun (start m) r) :
    (∀ height, r.Step (.applyHeight height) r' → r.Timely (.applyHeight height) →
      LatestDue initial r'.scheduled height r'.manager.active) ∧
    ∀ requestedHeight validators m' activation,
      r.manager.schedule requestedHeight validators = .ok (m', activation) →
        ((config.eraLength ∣ activation ∧
          requestedHeight + config.activationDelay ≤ activation) ↔
          r.Timely (.schedule requestedHeight validators)) := by
  have hinv := (inv_start hconfig).run hrun
  constructor
  · intro height hstep htimely
    cases hstep with
    | applyHeight hheight =>
        obtain ⟨hnext, hdone⟩ := hinv.applyHeight hheight htimely
        exact hnext.latestDue hdone
  · intro requestedHeight validators m' activation haccepted
    obtain ⟨-, -, rfl, -⟩ := EraManager.schedule_eq_ok.1 haccepted
    simp only [EraManager.new, check_bind_eq_ok, reject_eq_ok, not_or] at hconfig
    obtain ⟨-, ⟨hlength, -⟩, -⟩ := hconfig
    rw [hinv.config, EraManager.activation_iff (Nat.pos_of_ne_zero hlength), Timely, hinv.config]

end

end EraRun

/-! ## Two boundaries at once -/

namespace SkippedBoundary

def config : EraConfig := { eraLength := 100, activationDelay := 25 }

def members (votingPower : ℕ) : List Validator :=
  ["a", "b", "c", "d"].map fun id => { id, votingPower }

def manager : EraManager := { config, active := members 1, pending := ∅ }

def first : ValidatorSetUpdate := ⟨90, 200, members 2⟩

def second : ValidatorSetUpdate := ⟨190, 300, members 3⟩

def afterFirst : EraRun :=
  { manager := { manager with pending := manager.pending.insert 200 first }
    scheduled := [first], height := 0 }

def afterSecond : EraRun :=
  { manager := { manager with pending := afterFirst.manager.pending.insert 300 second }
    scheduled := [second, first], height := 0 }

theorem new_manager : EraManager.new config (members 1) = .ok manager := rfl

theorem step_first : (EraRun.start manager).Step (.schedule 90 (members 2)) afterFirst :=
  .schedule (EraManager.schedule_eq_ok.2 ⟨rfl, by decide, by decide, rfl⟩)
    fun u hu => absurd hu List.not_mem_nil

theorem step_second : afterFirst.Step (.schedule 190 (members 3)) afterSecond := by
  refine .schedule (EraManager.schedule_eq_ok.2 ⟨rfl, by decide, by decide, rfl⟩) fun u hu => ?_
  obtain rfl := List.mem_singleton.1 hu
  decide

/-- A call for height 350 activates the set of height 200, not that of height 300. And the last
boundaries before the end of the height range are none. -/
theorem skipped_not_latest :
    (∃ r r', Relation.ReflTransGen (fun r r' => ∃ call, EraRun.Step r call r')
        (EraRun.start manager) r ∧ r.Step (.applyHeight 350) r' ∧
      ¬EraRun.LatestDue (members 1) r'.scheduled 350 r'.manager.active) ∧
    ∃ m activation, manager.schedule (u64Max - 25) (members 2) = .ok (m, activation) ∧
      ¬config.eraLength ∣ activation := by
  refine ⟨⟨afterSecond, _, .tail (.single ⟨_, step_first⟩) ⟨_, step_second⟩,
    .applyHeight (Nat.zero_le _), ?_⟩, _, u64Max,
    EraManager.schedule_eq_ok.2 ⟨rfl, by decide, by decide, rfl⟩, by decide⟩
  have hactive : (afterSecond.manager.applyHeight 350).1.active = members 2 := by decide
  rintro (⟨u, hu, -, hvalidators, hmax⟩ | ⟨hnone, -⟩)
  · rw [hactive] at hvalidators
    have hgreatest := hmax second (List.mem_cons_self ..) (by decide)
    rcases List.mem_cons.1 hu with rfl | hu
    · exact absurd hvalidators (by decide)
    · obtain rfl := List.mem_singleton.1 hu
      exact absurd hgreatest (by decide)
  · exact absurd (hnone second (List.mem_cons_self ..)) (by decide)

theorem latest_due_active_first : ∃ r', afterFirst.Step (.applyHeight 200) r' ∧
    EraRun.LatestDue (members 1) r'.scheduled 200 r'.manager.active := by
  have htimely : (EraRun.start manager).Timely (.schedule 90 (members 2)) := by
    unfold EraRun.Timely
    decide
  have hdue : afterFirst.Timely (.applyHeight 200) := by
    intro a ha _
    have honly : ∀ b ∈ afterFirst.manager.pending, b = 200 := fun b hb =>
      (AList.mem_insert _).1 hb |>.resolve_right (AList.notMem_empty b)
    refine ⟨fun b hb _ => (honly b hb).trans (honly a ha).symm, ?_⟩
    rintro u ⟨hu, hpending⟩
    obtain rfl := List.mem_singleton.1 hu
    exact absurd ((AList.mem_insert _).2 (.inl rfl)) hpending
  have hstep : afterFirst.Step (.applyHeight 200) _ := .applyHeight (Nat.zero_le 200)
  exact ⟨_, hstep, (EraRun.latest_due_active new_manager
    (.single ⟨_, step_first, htimely⟩)).1 200 hstep hdue⟩

end SkippedBoundary

end IeumChain
