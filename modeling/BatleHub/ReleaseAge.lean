import BatleHub.CachedFetch
import BatleHub.RbacRules
import BatleHub.Verdicts

/-!
The release-age gate (`rules/release_age.rs`) and its transcription for the catalog
(`entities/explore.rs`). Both read the same parameters: the gate when an artifact is
asked for, the catalog when a package is listed. What the gate refuses is said once, and
the two are compared with it.
-/
namespace BatleHub.ReleaseAge

open LocalPackages ProxyCache RbacRules Verdicts

/-- `to_std`: a negative span has no duration. -/
def toStd (span : ℤ) : Option ℕ := if span < 0 then none else some span.toNat

theorem toStd_of_le {t u : ℤ} (h : t ≤ u) : toStd (u - t) = some (u - t).toNat := by
  unfold toStd
  rw [if_neg (by omega)]

theorem toStd_of_lt {t u : ℤ} (h : u < t) : toStd (u - t) = none := by
  unfold toStd
  rw [if_pos (by omega)]

section Gate

structure ReleaseAgeGateRule where
  minAge : ℕ
  bypassRoles : List Role
  denyMissingTimestamp : Bool

namespace ReleaseAgeGateRule

def missingReason : String :=
  "release timestamp is missing and deny_missing_timestamp is enabled; " ++
    "the upstream did not provide a publish date for this package"

def tooRecentReason (rule : ReleaseAgeGateRule) (age : ℕ) : String :=
  "release is too recent (age: " ++ toString (age / nanosPerSecond) ++ "s, minimum: " ++
    toString (rule.minAge / nanosPerSecond) ++ "s, " ++
    toString ((rule.minAge - age) / nanosPerSecond) ++ " seconds remaining in quarantine)"

/-- A span that runs backwards counts as age zero. -/
def evaluate (rule : ReleaseAgeGateRule) (role : Role) (publishedAt : Option DateTime)
    (now : DateTime) : RuleDecision :=
  let bypassed := clearsBypass role rule.bypassRoles
  match publishedAt with
  | none =>
    if !rule.denyMissingTimestamp then .allow
    else if bypassed then .allow
    else .deny missingReason
  | some published =>
    let age := (toStd (now - published)).getD 0
    if rule.minAge ≤ age ∨ bypassed then .allow else .deny (rule.tooRecentReason age)

/-- Too young on the gate's clock: a date ahead of the clock has no age at all. -/
def TooYoung (rule : ReleaseAgeGateRule) (published now : DateTime) : Prop :=
  (now - published).toNat < rule.minAge

instance (rule : ReleaseAgeGateRule) (published now : DateTime) :
    Decidable (rule.TooYoung published now) := by
  unfold TooYoung
  infer_instance

theorem getD_toStd (span : ℤ) : (toStd span).getD 0 = span.toNat := by
  unfold toStd
  split
  · simp only [Option.getD_none]
    omega
  · rfl

/-- The gate refuses what is not bypassed and either undated or too young. -/
theorem evaluate_deny_iff (rule : ReleaseAgeGateRule) (role : Role)
    (publishedAt : Option DateTime) (now : DateTime) :
    (∃ reason, rule.evaluate role publishedAt now = .deny reason) ↔
      clearsBypass role rule.bypassRoles = false ∧
        match publishedAt with
        | none => rule.denyMissingTimestamp = true
        | some published => rule.TooYoung published now := by
  cases publishedAt with
  | none =>
    simp only [evaluate]
    cases rule.denyMissingTimestamp <;> cases clearsBypass role rule.bypassRoles <;> simp
  | some published =>
    simp only [evaluate, getD_toStd, TooYoung]
    by_cases hage : rule.minAge ≤ (now - published).toNat
    · simp [hage]
    · cases hbypass : clearsBypass role rule.bypassRoles with
      | true => simp
      | false => simp [hage, not_le.mp hage]

end ReleaseAgeGateRule

end Gate

section Catalog

structure ReleaseAgeGateParams where
  minAge : ℕ
  bypassRoles : List Role
  denyMissingTimestamp : Bool

/-- The rule that is built beside the parameters. -/
def ReleaseAgeGateParams.rule (gate : ReleaseAgeGateParams) : ReleaseAgeGateRule where
  minAge := gate.minAge
  bypassRoles := gate.bypassRoles
  denyMissingTimestamp := gate.denyMissingTimestamp

def isQuarantined (gate : ReleaseAgeGateParams) (publishedAt : Option DateTime) (viewer : Role)
    (now : DateTime) : Bool :=
  if clearsBypass viewer gate.bypassRoles then false
  else
    match publishedAt with
    | none => gate.denyMissingTimestamp
    | some published =>
      match toStd (now - published) with
      | some age => decide (age < gate.minAge)
      | none => true

structure ResolutionPolicy where
  artifactTtl : Option ℕ
  releaseAge : Option ReleaseAgeGateParams

/-- What the state of a listed package depends on. -/
structure ExploreEntry where
  hasBlocked : Bool
  hasYanked : Bool
  cachedVersions : ℕ
  lastFetchedAt : Option DateTime
  newestPublishedAt : Option DateTime

inductive ResolutionState where
  | cached
  | stale
  | held
  | pending
  | yanked
  | blocked
  deriving DecidableEq, Repr

def pastTtl (entry : ExploreEntry) (policy : ResolutionPolicy) (now : DateTime) : Bool :=
  match policy.artifactTtl, entry.lastFetchedAt with
  | some ttl, some fetched => (toStd (now - fetched)).any fun age => decide (ttl ≤ age)
  | _, _ => false

def resolveState (entry : ExploreEntry) (policy : ResolutionPolicy) (viewer : Role)
    (now : DateTime) : ResolutionState :=
  if entry.hasBlocked then .blocked
  else if entry.hasYanked then .yanked
  else if policy.releaseAge.any fun gate =>
      isQuarantined gate entry.newestPublishedAt viewer now then .held
  else if entry.cachedVersions = 0 then .pending
  else if pastTtl entry policy now then .stale
  else .cached

/-- The catalog reads a date ahead of the clock as inside every window, the empty one
included. -/
theorem isQuarantined_iff (gate : ReleaseAgeGateParams) (publishedAt : Option DateTime)
    (viewer : Role) (now : DateTime) :
    isQuarantined gate publishedAt viewer now = true ↔
      clearsBypass viewer gate.bypassRoles = false ∧
        match publishedAt with
        | none => gate.denyMissingTimestamp = true
        | some published => now < published ∨ gate.rule.TooYoung published now := by
  unfold isQuarantined
  cases hbypass : clearsBypass viewer gate.bypassRoles with
  | true => simp
  | false =>
    cases publishedAt with
    | none => simp
    | some published =>
      by_cases hahead : now < published
      · simp [toStd_of_lt hahead, hahead]
      · simp [toStd_of_le (not_lt.mp hahead), hahead, ReleaseAgeGateRule.TooYoung,
          ReleaseAgeGateParams.rule]

/-- The window that the two read differently: an empty one, and a date ahead of the
clock. -/
def Degenerate (gate : ReleaseAgeGateParams) (publishedAt : Option DateTime) (viewer : Role)
    (now : DateTime) : Prop :=
  clearsBypass viewer gate.bypassRoles = false ∧ gate.minAge = 0 ∧
    ∃ published, publishedAt = some published ∧ now < published

/-- The gate's refusals are among what the catalog holds. -/
theorem isQuarantined_of_deny {gate : ReleaseAgeGateParams} {publishedAt : Option DateTime}
    {viewer : Role} {now : DateTime}
    (hdeny : ∃ reason, gate.rule.evaluate viewer publishedAt now = .deny reason) :
    isQuarantined gate publishedAt viewer now = true := by
  rw [ReleaseAgeGateRule.evaluate_deny_iff] at hdeny
  rw [isQuarantined_iff]
  refine ⟨hdeny.1, ?_⟩
  cases publishedAt with
  | none => exact hdeny.2
  | some published => exact .inr hdeny.2

/-- What the catalog holds and the gate does not refuse is the degenerate window. -/
theorem isQuarantined_and_allow_iff (gate : ReleaseAgeGateParams)
    (publishedAt : Option DateTime) (viewer : Role) (now : DateTime) :
    (isQuarantined gate publishedAt viewer now = true ∧
        ¬ ∃ reason, gate.rule.evaluate viewer publishedAt now = .deny reason) ↔
      Degenerate gate publishedAt viewer now := by
  rw [isQuarantined_iff, ReleaseAgeGateRule.evaluate_deny_iff]
  constructor
  · rintro ⟨⟨hbypass, hheld⟩, hallow⟩
    cases publishedAt with
    | none => exact absurd ⟨hbypass, hheld⟩ hallow
    | some published =>
      have hyoung : ¬ gate.rule.TooYoung published now := fun h => hallow ⟨hbypass, h⟩
      have hahead : now < published := hheld.resolve_right hyoung
      have hage : (now - published).toNat = 0 := Int.toNat_of_nonpos (Int.sub_nonpos_of_le (le_of_lt hahead))
      have hempty : gate.minAge = 0 := by
        have hle : ¬ (now - published).toNat < gate.minAge := hyoung
        omega
      exact ⟨hbypass, hempty, published, rfl, hahead⟩
  · rintro ⟨hbypass, hempty, published, rfl, hahead⟩
    refine ⟨⟨hbypass, .inl hahead⟩, ?_⟩
    rintro ⟨-, hyoung⟩
    have hlt : (now - published).toNat < gate.minAge := hyoung
    omega

/-- A package that no operator or owner withdrew is shown as held where its newest version is
in quarantine. -/
theorem resolveState_held_iff (entry : ExploreEntry) (policy : ResolutionPolicy) (viewer : Role)
    (now : DateTime) :
    resolveState entry policy viewer now = .held ↔
      entry.hasBlocked = false ∧ entry.hasYanked = false ∧
        ∃ gate, policy.releaseAge = some gate ∧
          isQuarantined gate entry.newestPublishedAt viewer now = true := by
  unfold resolveState
  cases hblocked : entry.hasBlocked with
  | true => simp
  | false =>
    cases hyanked : entry.hasYanked with
    | true => simp
    | false =>
      by_cases hheld : policy.releaseAge.any fun gate =>
          isQuarantined gate entry.newestPublishedAt viewer now
      · simp [hheld, (Option.any_eq_true _ _).mp hheld]
      · have hnone : ¬ ∃ gate, policy.releaseAge = some gate ∧
            isQuarantined gate entry.newestPublishedAt viewer now = true := by
          intro hany
          exact hheld ((Option.any_eq_true _ _).mpr hany)
        simp only [hheld, hnone]
        split_ifs <;> simp

/-- The catalog and the gate agree, except on an empty window and a date ahead of the
clock; and what the catalog shows as held is what it quarantines. -/
theorem isQuarantined_iff_deny_iff (gate : ReleaseAgeGateParams)
    (publishedAt : Option DateTime) (viewer : Role) (now : DateTime) :
    ((isQuarantined gate publishedAt viewer now = true ↔
        ∃ reason, gate.rule.evaluate viewer publishedAt now = .deny reason) ↔
      ¬ (clearsBypass viewer gate.bypassRoles = false ∧ gate.minAge = 0 ∧
        ∃ published, publishedAt = some published ∧ now < published)) ∧
    ∀ (entry : ExploreEntry) (policy : ResolutionPolicy),
      resolveState entry policy viewer now = .held ↔
        entry.hasBlocked = false ∧ entry.hasYanked = false ∧
          ∃ gate, policy.releaseAge = some gate ∧
            isQuarantined gate entry.newestPublishedAt viewer now = true := by
  refine ⟨?_, fun entry policy => resolveState_held_iff entry policy viewer now⟩
  have hsplit := isQuarantined_and_allow_iff gate publishedAt viewer now
  constructor
  · intro hagree hdegenerate
    obtain ⟨hheld, hallow⟩ := hsplit.mpr hdegenerate
    exact hallow (hagree.mp hheld)
  · intro hsound
    refine ⟨fun hheld => ?_, isQuarantined_of_deny⟩
    by_contra hallow
    exact hsound (hsplit.mp ⟨hheld, hallow⟩)

/-- One day, in nanoseconds. -/
def oneDay : DateTime := 86400 * 1000000000

/-- An empty window lets a release of tomorrow through, and the catalog shows it as held. -/
theorem empty_window_is_shown_as_held :
    ¬ ∀ (gate : ReleaseAgeGateParams) (publishedAt : Option DateTime) (viewer : Role)
        (now : DateTime),
      isQuarantined gate publishedAt viewer now = true ↔
        ∃ reason, gate.rule.evaluate viewer publishedAt now = .deny reason := by
  intro hagree
  obtain ⟨reason, hdeny⟩ := (hagree ⟨0, [], false⟩ (some oneDay) .user 0).mp (by decide)
  exact absurd hdeny (by simp [ReleaseAgeGateParams.rule, ReleaseAgeGateRule.evaluate])

end Catalog

end BatleHub.ReleaseAge
