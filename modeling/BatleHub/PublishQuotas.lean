import BatleHub.Lib.AssocMap
import BatleHub.Vocabulary
import Mathlib.Algebra.Order.Ring.Nat

/-!
Quota accounting of publishes (`services/quota.rs`, `in_memory/ops/quota.rs`). A publish is
recorded under the quota of the deepest tier that declares one; a publish that failed later
is taken back where the registry itself has a quota.
-/
namespace BatleHub.PublishQuotas

open Lib.AssocMap

section Saturation

variable {limit : ℕ}

def saturatingAdd (a b : Fin (limit + 1)) : Fin (limit + 1) :=
  ⟨min (a.val + b.val) limit, Nat.lt_succ_of_le (Nat.min_le_right _ _)⟩

def saturatingSub (a b : Fin (limit + 1)) : Fin (limit + 1) :=
  ⟨a.val - b.val, Nat.lt_of_le_of_lt (Nat.sub_le _ _) a.isLt⟩

/-- A subtraction takes an addition back if the sum was not cut. -/
theorem saturatingSub_saturatingAdd_iff (a b : Fin (limit + 1)) :
    saturatingSub (saturatingAdd a b) b = a ↔ a.val + b.val ≤ limit := by
  have hb := b.isLt
  rw [Fin.ext_iff]
  unfold saturatingSub saturatingAdd
  dsimp only
  omega

theorem saturatingAdd_eq_left_iff (a b : Fin (limit + 1)) :
    saturatingAdd a b = a ↔ b.val = 0 ∨ a.val = limit := by
  have ha := a.isLt
  rw [Fin.ext_iff]
  unfold saturatingAdd
  dsimp only
  omega

end Saturation

abbrev U64 := Fin (2 ^ 64 - 1 + 1)

abbrev U32 := Fin (2 ^ 32 - 1 + 1)

inductive QuotaEnforcement where
  | block
  | warn
  deriving DecidableEq, Repr

/-- Quota limits of a registry or of a tier below it. -/
structure RegistryQuotaConfig (Threshold : Type*) where
  maxStorageBytesPerUser : Option U64
  maxPackagesPerUser : Option U32
  warnThreshold : Threshold
  enforcement : QuotaEnforcement

structure QuotaCheck where
  bytesUsed : U64
  bytesLimit : Option U64
  packagesUsed : U32
  packagesLimit : Option U32
  warning : Bool
  deriving DecidableEq, Repr

def QuotaCheck.default : QuotaCheck := ⟨0, none, 0, none, false⟩

@[ext]
structure QuotaUsage where
  userId : String
  registry : String
  bytesPublished : U64
  packagesCount : U32
  deriving DecidableEq, Repr

inductive QuotaOutcome where
  | recorded (bytesUsed : U64) (packagesUsed : U32)
  | exceeded (bytesUsed : U64) (packagesUsed : U32)
  deriving DecidableEq, Repr

/-- `CoreError::QuotaExceeded`. -/
structure QuotaExceeded where
  message : String
  deriving DecidableEq, Repr

section Repository

/-- Usage by user and registry. -/
structure InMemoryQuotaRepository where
  data : Assoc (String × String) QuotaUsage

def zeroUsage (userId registry : String) : QuotaUsage := ⟨userId, registry, 0, 0⟩

namespace InMemoryQuotaRepository

def getUsage (repo : InMemoryQuotaRepository) (userId registry : String) : QuotaUsage :=
  (repo.data.lookup (userId, registry)).getD (zeroUsage userId registry)

def setUsage (repo : InMemoryQuotaRepository) (userId registry : String) (usage : QuotaUsage) :
    InMemoryQuotaRepository := ⟨repo.data.insert (userId, registry) usage⟩

/-- The check and the write are one step; a refused publish leaves its zero row at most. -/
def tryRecordPublish (repo : InMemoryQuotaRepository) (userId registry : String) (bytes : U64)
    (maxBytes : Option U64) (maxPackages : Option U32) : QuotaOutcome × InMemoryQuotaRepository :=
  let entry := repo.getUsage userId registry
  let newBytes := saturatingAdd entry.bytesPublished bytes
  let newPackages := saturatingAdd entry.packagesCount 1
  if (maxBytes.any fun max => decide (max < newBytes)) ||
      maxPackages.any fun max => decide (max < newPackages) then
    (.exceeded newBytes newPackages, repo.setUsage userId registry entry)
  else
    (.recorded newBytes newPackages, repo.setUsage userId registry
      { entry with bytesPublished := newBytes, packagesCount := newPackages })

def revokePublish (repo : InMemoryQuotaRepository) (userId registry : String) (bytes : U64) :
    InMemoryQuotaRepository :=
  let entry := repo.getUsage userId registry
  repo.setUsage userId registry { entry with
    bytesPublished := saturatingSub entry.bytesPublished bytes
    packagesCount := saturatingSub entry.packagesCount 1 }

theorem getUsage_setUsage (repo : InMemoryQuotaRepository) (userId registry : String)
    (usage : QuotaUsage) (other : String) (otherRegistry : String) :
    (repo.setUsage userId registry usage).getUsage other otherRegistry =
      if (other, otherRegistry) = (userId, registry) then usage
      else repo.getUsage other otherRegistry := by
  unfold getUsage setUsage
  rw [lookup_insert_eq]
  split
  · rfl
  · rfl

/-- A row written back as it was read changes no usage. -/
theorem getUsage_setUsage_self (repo : InMemoryQuotaRepository) (userId registry : String) :
    (repo.setUsage userId registry (repo.getUsage userId registry)).getUsage = repo.getUsage := by
  funext other otherRegistry
  rw [getUsage_setUsage]
  split
  · rename_i hsame
    obtain ⟨rfl, rfl⟩ := Prod.mk.inj hsame
    rfl
  · rfl

/-- The usage of all is as before exactly when the written row is. -/
theorem getUsage_setUsage_eq_iff (repo : InMemoryQuotaRepository) (userId registry : String)
    (usage : QuotaUsage) : (repo.setUsage userId registry usage).getUsage = repo.getUsage ↔
      usage = repo.getUsage userId registry := by
  constructor
  · intro h
    have hrow := congrFun (congrFun h userId) registry
    rw [getUsage_setUsage, if_pos rfl] at hrow
    exact hrow
  · rintro rfl
    exact getUsage_setUsage_self repo userId registry

theorem setUsage_setUsage (repo : InMemoryQuotaRepository) (userId registry : String)
    (usage usage' : QuotaUsage) :
    ((repo.setUsage userId registry usage).setUsage userId registry usage').getUsage =
      (repo.setUsage userId registry usage').getUsage := by
  funext other otherRegistry
  rw [getUsage_setUsage, getUsage_setUsage, getUsage_setUsage]
  split
  · rfl
  · rfl

end InMemoryQuotaRepository

end Repository

section Service
variable {Threshold : Type*}

/-- The repository stands beside it; only registries with a quota are in `configs`. The
fraction of a limit past which to warn is a floating-point number, so it and its test are
left open. -/
structure QuotaService (Threshold : Type*) where
  configs : Assoc String (RegistryQuotaConfig Threshold)
  isWarning : ℕ → Option ℕ → Threshold → Bool

def exceededMessage (config : RegistryQuotaConfig Threshold) (registry : String)
    (bytesUsed : U64) (packagesUsed : U32) : String :=
  if config.maxStorageBytesPerUser.any fun max => decide (max < bytesUsed) then
    "storage quota exceeded for registry '" ++ registry ++ "': " ++ toString bytesUsed.val ++
      " bytes used, limit is " ++ toString (config.maxStorageBytesPerUser.getD 0).val
  else
    "package quota exceeded for registry '" ++ registry ++ "': " ++ toString packagesUsed.val ++
      " packages, limit is " ++ toString (config.maxPackagesPerUser.getD 0).val

/-- The limits the repository enforces; in `warn` mode it enforces none. -/
def enforced (config : RegistryQuotaConfig Threshold) : Option U64 × Option U32 :=
  match config.enforcement with
  | .block => (config.maxStorageBytesPerUser, config.maxPackagesPerUser)
  | .warn => (none, none)

namespace QuotaService

/-- The quota of the deepest tier that declares one. -/
def quotaFor (svc : QuotaService Threshold) (registry : String)
    (tierQuota : Option (RegistryQuotaConfig Threshold)) :
    Option (RegistryQuotaConfig Threshold) :=
  tierQuota.or (svc.configs.lookup registry)

def checkAndRecordPublishAtTier (svc : QuotaService Threshold) (identity : Identity)
    (registry : String) (bytes : U64) (tierQuota : Option (RegistryQuotaConfig Threshold))
    (repo : InMemoryQuotaRepository) :
    Except QuotaExceeded QuotaCheck × InMemoryQuotaRepository :=
  match svc.quotaFor registry tierQuota with
  | none => (.ok .default, repo)
  | some config =>
    match identity.userId with
    | none =>
      if config.maxStorageBytesPerUser.isSome || config.maxPackagesPerUser.isSome then
        (.error ⟨"anonymous users cannot publish to quota-gated registries"⟩, repo)
      else (.ok .default, repo)
    | some userId =>
      match repo.tryRecordPublish userId registry bytes (enforced config).1 (enforced config).2 with
      | (.exceeded bytesUsed packagesUsed, repo') =>
        (.error ⟨exceededMessage config registry bytesUsed packagesUsed⟩, repo')
      | (.recorded newBytes newCount, repo') =>
        let warning :=
          svc.isWarning newBytes.val (config.maxStorageBytesPerUser.map Fin.val)
              config.warnThreshold ||
            svc.isWarning newCount.val (config.maxPackagesPerUser.map Fin.val)
              config.warnThreshold
        (.ok ⟨newBytes, config.maxStorageBytesPerUser, newCount, config.maxPackagesPerUser,
          warning⟩, repo')

def revokePublish (svc : QuotaService Threshold) (identity : Identity) (registry : String)
    (bytes : U64) (repo : InMemoryQuotaRepository) : InMemoryQuotaRepository :=
  match identity.userId with
  | none => repo
  | some userId =>
    if (svc.configs.lookup registry).isSome then repo.revokePublish userId registry bytes else repo

end QuotaService

end Service

section Reversal
variable {Threshold : Type*} (svc : QuotaService Threshold) (identity : Identity)
  (registry : String) (bytes : U64) (tierQuota : Option (RegistryQuotaConfig Threshold))
  (repo : InMemoryQuotaRepository)

/-- A publish that was recorded is undone by its revocation, and one that was refused has
recorded nothing. -/
def Undone : Prop :=
  match svc.checkAndRecordPublishAtTier identity registry bytes tierQuota repo with
  | (.ok _, repo') =>
    (svc.revokePublish identity registry bytes repo').getUsage = repo.getUsage
  | (.error _, repo') => repo'.getUsage = repo.getUsage

/-- The publish keeps to the limits that are enforced. -/
def WithinLimits (config : RegistryQuotaConfig Threshold) (usage : QuotaUsage) : Prop :=
  (∀ max, (enforced config).1 = some max → saturatingAdd usage.bytesPublished bytes ≤ max) ∧
    ∀ max, (enforced config).2 = some max → saturatingAdd usage.packagesCount 1 ≤ max

/-- A publish of a user that a quota applies to and its limits let through: the registry has
a quota of its own and neither counter overflows. Without one the publish is undone only if
it counted for nothing, with both counters at their end. -/
def Reversible : Prop :=
  ∀ userId config, identity.userId = some userId → svc.quotaFor registry tierQuota = some config →
    WithinLimits bytes config (repo.getUsage userId registry) →
    if (svc.configs.lookup registry).isSome then
      (repo.getUsage userId registry).bytesPublished.val + bytes.val ≤ 2 ^ 64 - 1 ∧
        (repo.getUsage userId registry).packagesCount.val + 1 ≤ 2 ^ 32 - 1
    else
      (bytes.val = 0 ∨ (repo.getUsage userId registry).bytesPublished.val = 2 ^ 64 - 1) ∧
        (repo.getUsage userId registry).packagesCount.val = 2 ^ 32 - 1

variable {svc identity registry bytes tierQuota repo}

theorem tryRecordPublish_cases (registry : String) (bytes : U64) (repo : InMemoryQuotaRepository)
    (userId : String) (config : RegistryQuotaConfig Threshold) :
    (¬ WithinLimits bytes config (repo.getUsage userId registry) ∧ ∃ newBytes newPackages,
      repo.tryRecordPublish userId registry bytes (enforced config).1 (enforced config).2 =
        (.exceeded newBytes newPackages,
          repo.setUsage userId registry (repo.getUsage userId registry))) ∨
      WithinLimits bytes config (repo.getUsage userId registry) ∧
        repo.tryRecordPublish userId registry bytes (enforced config).1 (enforced config).2 =
          (.recorded (saturatingAdd (repo.getUsage userId registry).bytesPublished bytes)
              (saturatingAdd (repo.getUsage userId registry).packagesCount 1),
            repo.setUsage userId registry
              { repo.getUsage userId registry with
                bytesPublished := saturatingAdd (repo.getUsage userId registry).bytesPublished bytes
                packagesCount := saturatingAdd (repo.getUsage userId registry).packagesCount 1 }) := by
  unfold InMemoryQuotaRepository.tryRecordPublish WithinLimits
  dsimp only
  split
  · rename_i hexceeded
    refine .inl ⟨fun hwithin => ?_, _, _, rfl⟩
    rw [Bool.or_eq_true, Option.any_eq_true, Option.any_eq_true] at hexceeded
    rcases hexceeded with ⟨max, hmax, hlt⟩ | ⟨max, hmax, hlt⟩
    · exact absurd (hwithin.1 max hmax) (Fin.not_le.mpr (of_decide_eq_true hlt))
    · exact absurd (hwithin.2 max hmax) (Fin.not_le.mpr (of_decide_eq_true hlt))
  · rename_i hfits
    rw [Bool.or_eq_true, not_or, Option.any_eq_true, Option.any_eq_true] at hfits
    refine .inr ⟨⟨fun max hmax => ?_, fun max hmax => ?_⟩, rfl⟩
    · exact Fin.not_lt.mp fun hlt => hfits.1 ⟨max, hmax, decide_eq_true hlt⟩
    · exact Fin.not_lt.mp fun hlt => hfits.2 ⟨max, hmax, decide_eq_true hlt⟩

theorem undone_recorded_iff {userId : String} (huser : identity.userId = some userId)
    (usage : QuotaUsage) (husage : usage = repo.getUsage userId registry) :
    (svc.revokePublish identity registry bytes (repo.setUsage userId registry
      { usage with
        bytesPublished := saturatingAdd usage.bytesPublished bytes
        packagesCount := saturatingAdd usage.packagesCount 1 })).getUsage = repo.getUsage ↔
      if (svc.configs.lookup registry).isSome then
        usage.bytesPublished.val + bytes.val ≤ 2 ^ 64 - 1 ∧
          usage.packagesCount.val + 1 ≤ 2 ^ 32 - 1
      else
        (bytes.val = 0 ∨ usage.bytesPublished.val = 2 ^ 64 - 1) ∧
          usage.packagesCount.val = 2 ^ 32 - 1 := by
  unfold QuotaService.revokePublish
  rw [huser]
  dsimp only
  split
  · unfold InMemoryQuotaRepository.revokePublish
    dsimp only
    rw [InMemoryQuotaRepository.setUsage_setUsage,
      InMemoryQuotaRepository.getUsage_setUsage_eq_iff, ← husage,
      InMemoryQuotaRepository.getUsage_setUsage, if_pos rfl]
    rw [← saturatingSub_saturatingAdd_iff usage.bytesPublished bytes]
    have hcount := saturatingSub_saturatingAdd_iff usage.packagesCount (1 : U32)
    rw [show (1 : U32).val = 1 from rfl] at hcount
    rw [← hcount, QuotaUsage.ext_iff]
    simp
  · rw [InMemoryQuotaRepository.getUsage_setUsage_eq_iff, ← husage,
      ← saturatingAdd_eq_left_iff usage.bytesPublished bytes]
    have hcount := saturatingAdd_eq_left_iff usage.packagesCount (1 : U32)
    rw [show (1 : U32).val = 1 from rfl, or_iff_right Nat.one_ne_zero] at hcount
    rw [← hcount, QuotaUsage.ext_iff]
    simp

end Reversal

/-- A publish is undone by its revocation exactly when it is reversible. -/
theorem undone_iff {Threshold : Type*} (svc : QuotaService Threshold) (identity : Identity)
    (registry : String) (bytes : U64) (tierQuota : Option (RegistryQuotaConfig Threshold))
    (repo : InMemoryQuotaRepository) :
    Undone svc identity registry bytes tierQuota repo ↔
      Reversible svc identity registry bytes tierQuota repo := by
  unfold Undone Reversible QuotaService.checkAndRecordPublishAtTier
  cases hquota : svc.quotaFor registry tierQuota with
  | none =>
    have hsame : (svc.revokePublish identity registry bytes repo).getUsage = repo.getUsage := by
      have hnone : svc.configs.lookup registry = none := (Option.or_eq_none_iff.mp hquota).2
      unfold QuotaService.revokePublish
      rw [hnone]
      cases identity.userId with
      | none => rfl
      | some userId => rfl
    exact iff_of_true hsame fun _ _ _ h => by cases h
  | some config =>
    cases huser : identity.userId with
    | none =>
      refine iff_of_true ?_ fun _ _ h => by cases h
      dsimp only
      split
      · rename_i hresult
        split at hresult
        · cases hresult
        · cases hresult
          unfold QuotaService.revokePublish
          rw [huser]
      · rename_i hresult
        split at hresult
        · cases hresult
          rfl
        · cases hresult
    | some userId =>
      dsimp only
      rcases tryRecordPublish_cases registry bytes repo userId config with ⟨hexceeded, _, _, houtcome⟩ | ⟨hwithin, houtcome⟩
      · rw [houtcome]
        refine iff_of_true (InMemoryQuotaRepository.getUsage_setUsage_self repo userId registry) ?_
        rintro _ _ ⟨⟩ ⟨⟩ hwithin
        exact absurd hwithin hexceeded
      · rw [houtcome]
        dsimp only
        rw [undone_recorded_iff huser _ rfl]
        constructor
        · rintro h _ _ ⟨⟩ ⟨⟩ _
          exact h
        · intro h
          exact h userId config rfl rfl hwithin

section Unconfigured

/-- A registry without a quota of its own, under a namespace that has one. -/
def unconfigured : QuotaService Unit where
  configs := ∅
  isWarning _ _ _ := false

def namespaceQuota : RegistryQuotaConfig Unit := ⟨some 1000, none, (), .block⟩

def alice : Identity where
  userId := some "alice"
  role := .user
  authProvider := none
  groups := []

/-- The publish is charged to the namespace's quota and stays charged. -/
theorem a_tier_quota_is_never_taken_back :
    ¬ Undone unconfigured alice "cargo" 100 (some namespaceQuota) ⟨∅⟩ := by
  intro h
  have hrow := congrFun (congrFun h "alice") "cargo"
  revert hrow
  decide

end Unconfigured

end BatleHub.PublishQuotas
