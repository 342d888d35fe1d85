import IeumChain.Library.ByteCodec
import IeumChain.Library.FiniteMap

/-!
# Migrations of the module state

Steps are looked up by the version they start from and write into the one context they are
given. Nothing is copied, so an error leaves what the steps before it have written.
-/
namespace IeumChain

open ByteCodec FiniteMap

structure ModuleContext where
  chainId : ℕ
  height : ℕ
  state : HashMap String Bytes
  events : List String

/-- A step gives the context as it leaves it, with its verdict. -/
structure StateMigration where
  moduleName : String
  sourceVersion : ℕ
  toVersion : ℕ
  migrate : ModuleContext → ModuleContext × Except String Unit

namespace StateMigration

section
variable (moduleName : String) (migrations : List StateMigration)

def lookup (version : ℕ) : Option StateMigration :=
  migrations.find? fun m => m.moduleName = moduleName ∧ m.sourceVersion = version

/-- The loop over the versions; each turn raises the version or ends it. -/
def migrationLoop (target version : ℕ) (context : ModuleContext) :
    ModuleContext × Except String ℕ :=
  if version < target then
    match lookup moduleName migrations version with
    | none => (context, .error "연속된 상태 migration이 없습니다.")
    | some migration =>
        if migration.toVersion ≤ version then
          (context, .error "상태 migration 버전은 반드시 증가해야 합니다.")
        else
          match migration.migrate context with
          | (context, .error e) => (context, .error e)
          | (context, .ok _) => migrationLoop target migration.toVersion context
  else if version ≠ target then (context, .error "상태 migration이 목표 버전을 지나쳤습니다.")
  else (context, .ok version)
termination_by target - version
decreasing_by omega

def applyMigrations (current target : ℕ) (context : ModuleContext) :
    ModuleContext × Except String ℕ :=
  migrationLoop moduleName migrations target current context

/-! ## What a call does -/

/-- The step for a version below the target that can run. -/
def Applicable (target version : ℕ) (migration : StateMigration) : Prop :=
  version < target ∧ lookup moduleName migrations version = some migration ∧
    version < migration.toVersion

/-- So many steps that succeed, one after the other. -/
inductive Steps (target : ℕ) : ℕ → ℕ → ModuleContext → ℕ → ModuleContext → Prop
  | refl (version : ℕ) (context : ModuleContext) : Steps target 0 version context version context
  | step {count version version' : ℕ} {context context₁ context' : ModuleContext}
      {migration : StateMigration}
      (happlicable : Applicable moduleName migrations target version migration)
      (hmigrate : migration.migrate context = (context₁, .ok ()))
      (hrest : Steps target count migration.toVersion context₁ version' context') :
      Steps target (count + 1) version context version' context'

/-- How the loop ends at a version and a context. -/
inductive Stops (target : ℕ) : ℕ → ModuleContext → ModuleContext × Except String ℕ → Prop
  | reached (context : ModuleContext) : Stops target target context (context, .ok target)
  | passed {version : ℕ} (context : ModuleContext) (hpassed : target < version) :
      Stops target version context (context, .error "상태 migration이 목표 버전을 지나쳤습니다.")
  | missing {version : ℕ} (context : ModuleContext) (hbelow : version < target)
      (hmissing : lookup moduleName migrations version = none) :
      Stops target version context (context, .error "연속된 상태 migration이 없습니다.")
  | standing {version : ℕ} (context : ModuleContext) {migration : StateMigration}
      (hbelow : version < target)
      (hfound : lookup moduleName migrations version = some migration)
      (hstanding : migration.toVersion ≤ version) :
      Stops target version context
        (context, .error "상태 migration 버전은 반드시 증가해야 합니다.")
  | failed {version : ℕ} {context context' : ModuleContext} {migration : StateMigration}
      {e : String} (happlicable : Applicable moduleName migrations target version migration)
      (hmigrate : migration.migrate context = (context', .error e)) :
      Stops target version context (context', .error e)

end

section
variable {moduleName : String} {migrations : List StateMigration} {target : ℕ}

/-- Every call ends, after at most as many steps as there are versions to the target. -/
theorem migrationLoop_steps (version : ℕ) (context : ModuleContext) :
    ∃ count version' context',
      Steps moduleName migrations target count version context version' context' ∧
      count ≤ target - version ∧
      Stops moduleName migrations target version' context'
        (migrationLoop moduleName migrations target version context) := by
  fun_induction migrationLoop moduleName migrations target version context with
  | case1 version context hbelow hmissing =>
      exact ⟨0, version, context, .refl _ _, Nat.zero_le _, .missing context hbelow hmissing⟩
  | case2 version context hbelow migration hfound hstanding =>
      exact ⟨0, version, context, .refl _ _, Nat.zero_le _,
        .standing context hbelow hfound hstanding⟩
  | case3 version context hbelow migration hfound hup context' e hmigrate =>
      exact ⟨0, version, context, .refl _ _, Nat.zero_le _,
        .failed ⟨hbelow, hfound, not_le.1 hup⟩ hmigrate⟩
  | case4 version context hbelow migration hfound hup context₁ _ hmigrate ih =>
      obtain ⟨count, version', context', hsteps, hcount, hstops⟩ := ih
      refine ⟨count + 1, version', context',
        .step ⟨hbelow, hfound, not_le.1 hup⟩ hmigrate hsteps, ?_, hstops⟩
      omega
  | case5 version context hbelow hne =>
      exact ⟨0, version, context, .refl _ _, Nat.zero_le _, .passed context (by omega)⟩
  | case6 version context hbelow heq =>
      obtain rfl : version = target := not_not.1 heq
      exact ⟨0, version, context, .refl _ _, Nat.zero_le _, .reached context⟩

theorem migrationLoop_of_step {version : ℕ} {context context₁ : ModuleContext}
    {migration : StateMigration}
    (happlicable : Applicable moduleName migrations target version migration)
    (hmigrate : migration.migrate context = (context₁, .ok ())) :
    migrationLoop moduleName migrations target version context =
      migrationLoop moduleName migrations target migration.toVersion context₁ := by
  obtain ⟨hbelow, hfound, hup⟩ := happlicable
  rw [migrationLoop, if_pos hbelow, hfound]
  dsimp only
  rw [if_neg (not_le.2 hup), hmigrate]

theorem migrationLoop_of_missing {version : ℕ} (context : ModuleContext)
    (hbelow : version < target) (hmissing : lookup moduleName migrations version = none) :
    migrationLoop moduleName migrations target version context =
      (context, .error "연속된 상태 migration이 없습니다.") := by
  rw [migrationLoop, if_pos hbelow, hmissing]

variable (moduleName migrations target) in
/-- A call that cannot begin leaves the context alone. -/
theorem migrationLoop_unstarted {version : ℕ} (context : ModuleContext)
    (h : ∀ migration, ¬Applicable moduleName migrations target version migration) :
    (migrationLoop moduleName migrations target version context).1 = context := by
  rw [migrationLoop]
  split_ifs with hbelow hne
  · split
    case h_1 => rfl
    case h_2 migration hfound =>
      rw [if_pos (not_lt.1 fun hup => h migration ⟨hbelow, hfound, hup⟩)]
  · rfl
  · rfl

variable (moduleName migrations target) in
/-- A call runs the steps it finds, at most as many as there are versions to the target, and stops
with the context as the last of them left it. Before the first step nothing is written. -/
theorem applyMigrations_outcome (current : ℕ) (context : ModuleContext) :
    (∃ count version context',
      Steps moduleName migrations target count current context version context' ∧
      count ≤ target - current ∧
      Stops moduleName migrations target version context'
        (applyMigrations moduleName migrations current target context)) ∧
    ((∀ migration, ¬Applicable moduleName migrations target current migration) →
      (applyMigrations moduleName migrations current target context).1 = context) :=
  ⟨migrationLoop_steps current context,
    migrationLoop_unstarted moduleName migrations target context⟩

end

end StateMigration

/-! ## A step that is missing after another one -/

namespace MissingStep

def context : ModuleContext := { chainId := 21004, height := 1, state := ∅, events := [] }

/-- Writes one key. -/
def migration : StateMigration :=
  { moduleName := "bank", sourceVersion := 1, toVersion := 2
    migrate := fun c => ({ c with state := c.state.insert "bank/last" [1] }, .ok ()) }

/-- The error for the missing second step leaves the key that the first one wrote. -/
theorem error_keeps_writes : ∃ context' e,
    StateMigration.applyMigrations "bank" [migration] 1 3 context = (context', .error e) ∧
      context' ≠ context := by
  have hfirst : StateMigration.Applicable "bank" [migration] 3 1 migration :=
    ⟨by decide, rfl, by decide⟩
  refine ⟨{ context with state := context.state.insert "bank/last" [1] },
    "연속된 상태 migration이 없습니다.", ?_, fun heq => ?_⟩
  · rw [StateMigration.applyMigrations, StateMigration.migrationLoop_of_step hfirst rfl,
      StateMigration.migrationLoop_of_missing _ (by decide) rfl]
  · have hstate := congrArg (fun c => c.state.lookup "bank/last") heq
    rw [AList.lookup_insert] at hstate
    cases hstate

end MissingStep

end IeumChain
