import BatleHub.Instants
import BatleHub.Verdicts
import Mathlib.Algebra.Order.Ring.Nat
import Mathlib.Data.List.Basic
import Mathlib.Data.Int.Notation

/-!
The pure evaluation (`services/verdict.rs`): metadata, findings, policy and clock
to a verdict. The findings' effects are folded into the worst state; age and
pending findings are derived anew each time. What an evaluation does to the
findings is stated once: the clock's own are replaced, the others are kept and
at most raised in severity. `evaluate` adds the ages on an unbounded axis;
`evaluateChecked` has chrono's range, where a sum past the last date panics.
-/
namespace BatleHub.VerdictEvaluation

open LocalPackages Verdicts Lib.AssocMap
open Instants (Representable checkedAddSigned checkedAddSigned_eq_some_iff)

def ageScanner : String := "age"

def pendingScanner : String := "pending"

/-- The longest span the clock's library holds: `i64::MAX` milliseconds. -/
def maxSpan : ℕ := (2 ^ 63 - 1) * 1000000

/-- `Duration::from_std(..).unwrap_or_default()`: what is too long counts as zero. -/
def fromStdOrDefault (d : ℕ) : ℤ := if d ≤ maxSpan then d else 0

/-- Year, month and day of a day counted from 1970-01-01. -/
def civilFromDays (days : ℤ) : ℤ × ℕ × ℕ :=
  let z := days + 719468
  let era := z.fdiv 146097
  let dayOfEra := (z.fmod 146097).toNat
  let yearOfEra := (dayOfEra - dayOfEra / 1460 + dayOfEra / 36524 - dayOfEra / 146096) / 365
  let dayOfYear := dayOfEra - (365 * yearOfEra + yearOfEra / 4 - yearOfEra / 100)
  let monthIndex := (5 * dayOfYear + 2) / 153
  let day := dayOfYear - (153 * monthIndex + 2) / 5 + 1
  let month := if monthIndex < 10 then monthIndex + 3 else monthIndex - 9
  let year := (yearOfEra : ℤ) + era * 400
  (if month ≤ 2 then year + 1 else year, month, day)

/-- Decimal digits, at least `width` of them. -/
def padded (width n : ℕ) : String :=
  let digits := toString n
  String.ofList (List.replicate (width - digits.length) '0') ++ digits

/-- `to_rfc3339_opts(Secs, true)`. -/
def rfc3339Secs (t : DateTime) : String :=
  let seconds := t.fdiv nanosPerSecond
  let (year, month, day) := civilFromDays (seconds.fdiv 86400)
  let ofDay := (seconds.fmod 86400).toNat
  let yearText :=
    if 0 ≤ year ∧ year ≤ 9999 then padded 4 year.toNat
    else (if year < 0 then "-" else "+") ++ padded 4 year.natAbs
  yearText ++ "-" ++ padded 2 month ++ "-" ++ padded 2 day ++ "T" ++ padded 2 (ofDay / 3600) ++
    ":" ++ padded 2 (ofDay / 60 % 60) ++ ":" ++ padded 2 (ofDay % 60) ++ "Z"

/-- When a version published then is old enough. -/
def oldEnoughAt (policy : SecurityPolicy) (published : DateTime) : DateTime :=
  published + fromStdOrDefault policy.minAge

/-- The finding of a version that is too young. -/
def minAgeFinding (policy : SecurityPolicy) (published now : DateTime) : Finding :=
  let availableAt := oldEnoughAt policy published
  { Finding.new ageScanner .age .minAgeNotMet .high
      ("published " ++ rfc3339Secs published ++ ", min age " ++
        toString (policy.minAge / nanosPerSecond) ++ "s, available in " ++
        toString (max ((availableAt - now).tdiv nanosPerSecond) 0) ++ "s") with
    availableAt := some availableAt }

def timestampMissingFinding : Finding :=
  Finding.new ageScanner .age .timestampMissing .high
    "the upstream did not date this version, and hold_missing_timestamp holds on that"

/-- What the age says: too young until it is old enough, or not dated at all. -/
def ageFindings (package : PackageMetadata) (policy : SecurityPolicy) (now : DateTime) :
    List Finding :=
  match package.publishedAt with
  | none => if policy.holdMissingTimestamp then [timestampMissingFinding] else []
  | some published =>
    if oldEnoughAt policy published ≤ now then [] else [minAgeFinding policy published now]

def pendingFinding (scanner : String) : Finding :=
  Finding.new pendingScanner .pending .scanPending .high
    ("required scanner '" ++ scanner ++ "' has not answered yet")

/-- One finding for each required scanner that is not in `done`. -/
def pendingFindings (policy : SecurityPolicy) (done : List String) : List Finding :=
  (policy.requiredScanners.filter fun s => decide (s ∉ done)).map pendingFinding

/-- Whether an escalation block counts the finding. -/
def hits (scanner : String) (esc : Escalation) (f : Finding) : Bool :=
  decide (f.scanner = scanner) && decide (f.kind ∈ esc.kinds) && decide (esc.lowest ≤ f.severity)

def raiseTo (severity : Severity) (f : Finding) : Finding :=
  if f.severity < severity then { f with severity := severity } else f

/-- One scanner's escalation block. -/
def escalateBlock (findings : List Finding) (scanner : String) (esc : Escalation) :
    List Finding :=
  if max esc.count 1 ≤ (findings.filter (hits scanner esc)).length then
    findings.map fun f => if hits scanner esc f then raiseTo esc.raised f else f
  else findings

def escalate (policy : SecurityPolicy) (findings : List Finding) : List Finding :=
  policy.escalation.entries.foldl (fun fs e => escalateBlock fs e.1 e.2) findings

/-- Judged against the registry's threshold: refused in `block` mode, warned in
`warn` mode, nothing below it. -/
def threshold (severity : Severity) (policy : SecurityPolicy) : Option VerdictState :=
  if severity < policy.maxSeverity then none
  else
    match policy.mode with
    | .block => some .denied
    | .warn => some .warned

def scannerErrorEffect (policy : SecurityPolicy) : Option VerdictState :=
  match policy.scannerError with
  | .quarantine => some .quarantined
  | .warn => some .warned
  | .ignore => none

def installHookEffect (policy : SecurityPolicy) : Option VerdictState :=
  match policy.denyInstallHooks with
  | .deny => threshold .critical policy
  | .warn => some .warned
  | .ignore => none

def provenanceEffect (policy : SecurityPolicy) : Option VerdictState :=
  if policy.requireProvenance then threshold .critical policy else some .warned

/-- The forge-ref codes carry the operator's action in their severity. -/
def forgeRefEffect (f : Finding) (policy : SecurityPolicy) : Option VerdictState :=
  match f.severity, policy.mode with
  | .critical, .block => some .denied
  | _, _ => some .warned

/-- What one finding does to the state; `none` when it changes nothing. -/
def classify (policy : SecurityPolicy) (f : Finding) : Option VerdictState :=
  if f.code.isAlwaysDenied then some .denied
  else
    match f.code with
    | .minAgeNotMet => some .quarantined
    | .scanPending => some .quarantined
    | .timestampMissing => some .quarantined
    | .scannerError => scannerErrorEffect policy
    | .scannerUnsupported => scannerErrorEffect policy
    | .installHook => installHookEffect policy
    | .provenanceMissing => provenanceEffect policy
    | .provenanceInvalid => provenanceEffect policy
    | .provenanceUnverifiable => some .warned
    | .adminOverride => none
    | .mutableRef => forgeRefEffect f policy
    | .tagMoved => forgeRefEffect f policy
    | .assetReplaced => forgeRefEffect f policy
    | .pinnedRefRequired => forgeRefEffect f policy
    | .rawScript => forgeRefEffect f policy
    | _ => threshold f.severity policy

/-- What folding the findings produced. -/
structure Folded where
  state : VerdictState
  codes : List ReasonCode
  availableAt : Option DateTime
  holdCodes : List ReasonCode
  deriving Repr

/-- The later of two lifts, where there are two. -/
def laterLift (current lift : Option DateTime) : Option DateTime :=
  match lift with
  | none => current
  | some at_ => some (current.elim at_ fun cur => max cur at_)

/-- One finding more. -/
def foldOne (policy : SecurityPolicy) (folded : Folded) (f : Finding) : Folded :=
  match classify policy f with
  | none => folded
  | some effect =>
    let held := decide (effect = .quarantined)
    { state := folded.state.worse effect
      codes := if f.code ∈ folded.codes then folded.codes else folded.codes ++ [f.code]
      availableAt := if held then laterLift folded.availableAt f.availableAt
        else folded.availableAt
      holdCodes := if held then folded.holdCodes ++ [f.code] else folded.holdCodes }

def fold (policy : SecurityPolicy) (findings : List Finding) : Folded :=
  findings.foldl (foldOne policy) ⟨.allowed, [], none, []⟩

/-- The maturity bypass: a hold whose only causes are "nobody looked yet" lifts
once the version is older than the mature age. -/
def maturityLifts (folded : Folded) (package : PackageMetadata) (policy : SecurityPolicy)
    (now : DateTime) : Bool :=
  if folded.state ≠ .quarantined ∨ folded.holdCodes = [] ∨ policy.matureAge = 0 then false
  else if folded.holdCodes.all ReasonCode.isMaturityBypassable then
    match package.publishedAt with
    | none => false
    | some published => decide (published + fromStdOrDefault policy.matureAge ≤ now)
  else false

/-- The findings the clock has no say in. -/
def content (findings : List Finding) : List Finding :=
  findings.filter fun f => decide (f.scanner ≠ ageScanner) && decide (f.scanner ≠ pendingScanner)

/-- The findings a verdict is folded from. -/
def judged (package : PackageMetadata) (findings : List Finding) (done : List String)
    (policy : SecurityPolicy) (now : DateTime) : List Finding :=
  escalate policy (content findings) ++ ageFindings package policy now ++
    pendingFindings policy done

def evaluate (package : PackageMetadata) (scannerFindings : List Finding)
    (scannersDone : List String) (policy : SecurityPolicy) (now : DateTime)
    (lastScannedAt : Option DateTime) : Verdict :=
  let findings := judged package scannerFindings scannersDone policy now
  let folded := fold policy findings
  -- the codes stay when maturity lifts a hold
  let state := if maturityLifts folded package policy now then .warned else folded.state
  { package := coordinateKey package.id
    state := state
    reasonCodes := folded.codes
    findings := findings
    policyRef := policy.policyRef
    availableAt := if state = .quarantined then folded.availableAt else none
    evaluatedAt := now
    lastScannedAt := lastScannedAt
    scannersDone := scannersDone }

section Panics
variable (package : PackageMetadata) (policy : SecurityPolicy) (now : DateTime)

/-- `age_findings`, up to a panic: the sum is taken before the clock is asked. -/
def ageFindingsChecked : Option (List Finding) :=
  match package.publishedAt with
  | none => some (if policy.holdMissingTimestamp then [timestampMissingFinding] else [])
  | some published =>
    (checkedAddSigned published (fromStdOrDefault policy.minAge)).map fun availableAt =>
      if availableAt ≤ now then [] else [minAgeFinding policy published now]

/-- `maturity_lifts`, up to a panic: the sum is taken last. -/
def maturityLiftsChecked (folded : Folded) : Option Bool :=
  if folded.state ≠ .quarantined ∨ folded.holdCodes = [] ∨ policy.matureAge = 0 then some false
  else if folded.holdCodes.all ReasonCode.isMaturityBypassable then
    match package.publishedAt with
    | none => some false
    | some published =>
      (checkedAddSigned published (fromStdOrDefault policy.matureAge)).map fun mature =>
        decide (mature ≤ now)
  else some false

/-- `evaluate`, up to a panic. -/
def evaluateChecked (scannerFindings : List Finding) (scannersDone : List String)
    (lastScannedAt : Option DateTime) : Option Verdict :=
  (ageFindingsChecked package policy now).bind fun aged =>
    let findings := escalate policy (content scannerFindings) ++ aged ++
      pendingFindings policy scannersDone
    let folded := fold policy findings
    (maturityLiftsChecked package policy now folded).map fun lifts =>
      let state := if lifts then .warned else folded.state
      { package := coordinateKey package.id
        state := state
        reasonCodes := folded.codes
        findings := findings
        policyRef := policy.policyRef
        availableAt := if state = .quarantined then folded.availableAt else none
        evaluatedAt := now
        lastScannedAt := lastScannedAt
        scannersDone := scannersDone }

/-- The day the version is old enough is one chrono has. -/
def AgeFits : Prop :=
  ∀ published, package.publishedAt = some published →
    Representable (oldEnoughAt policy published)

/-- The day the version is mature is one chrono has, where there is a mature age. -/
def MatureFits : Prop :=
  policy.matureAge = 0 ∨ ∀ published, package.publishedAt = some published →
    Representable (published + fromStdOrDefault policy.matureAge)

/-- The fold leaves it to the maturity whether the hold is lifted. -/
def MaturityAsked (folded : Folded) : Prop :=
  folded.state = .quarantined ∧ folded.holdCodes ≠ [] ∧
    folded.holdCodes.all ReasonCode.isMaturityBypassable = true

variable {package policy now}

theorem ageFindingsChecked_eq_some_iff {fs : List Finding} :
    ageFindingsChecked package policy now = some fs ↔
      AgeFits package policy ∧ fs = ageFindings package policy now := by
  unfold ageFindingsChecked AgeFits ageFindings
  cases package.publishedAt with
  | none =>
    constructor
    · intro h
      exact ⟨fun _ hnone => absurd hnone (by simp), (Option.some.inj h).symm⟩
    · rintro ⟨-, rfl⟩
      rfl
  | some published =>
    simp only [Option.map_eq_some_iff, checkedAddSigned_eq_some_iff, Option.some.injEq,
      forall_eq', oldEnoughAt]
    constructor
    · rintro ⟨_, ⟨hfits, rfl⟩, rfl⟩
      exact ⟨hfits, rfl⟩
    · rintro ⟨hfits, rfl⟩
      exact ⟨_, ⟨hfits, rfl⟩, rfl⟩

theorem maturityLiftsChecked_eq_some_iff {folded : Folded} {b : Bool} :
    maturityLiftsChecked package policy now folded = some b ↔
      (MaturityAsked folded → MatureFits package policy) ∧
        b = maturityLifts folded package policy now := by
  have hsome : ∀ b' : Bool, some b' = some b ↔ b = b' := by simp [eq_comm]
  unfold maturityLiftsChecked maturityLifts MaturityAsked MatureFits
  split
  · rename_i hnot
    rw [hsome]
    rcases hnot with hstate | hcodes | hage
    · simp only [hstate, false_and, false_implies, true_and]
    · simp only [hcodes, ne_eq, not_true_eq_false, false_and, and_false, false_implies, true_and]
    · simp only [hage, true_or, implies_true, true_and]
  · rename_i hcond
    simp only [not_or, not_not] at hcond
    obtain ⟨hstate, hcodes, hage⟩ := hcond
    cases hall : folded.holdCodes.all ReasonCode.isMaturityBypassable with
    | false => simp only [Bool.false_eq_true, if_false, hsome, and_false, false_implies, true_and]
    | true =>
      cases package.publishedAt with
      | none => simp only [if_true, hsome, reduceCtorEq, false_implies, implies_true, or_true,
          true_and]
      | some published =>
        simp only [if_true, Option.map_eq_some_iff, checkedAddSigned_eq_some_iff, hstate, hage,
          hcodes, ne_eq, not_false_eq_true, true_and, false_or, Option.some.injEq, forall_eq',
          forall_const]
        constructor
        · rintro ⟨_, ⟨hfits, rfl⟩, rfl⟩
          exact ⟨hfits, rfl⟩
        · rintro ⟨hfits, rfl⟩
          exact ⟨_, ⟨hfits, rfl⟩, rfl⟩

/-- An evaluation returns just when its sums have a date, and is then the one without bounds. -/
theorem evaluateChecked_eq_some_iff {findings : List Finding} {done : List String}
    {last : Option DateTime} {v : Verdict} :
    evaluateChecked package policy now findings done last = some v ↔
      AgeFits package policy ∧
        (MaturityAsked (fold policy (judged package findings done policy now)) →
          MatureFits package policy) ∧
        v = evaluate package findings done policy now last := by
  unfold evaluateChecked
  simp only [Option.bind_eq_some_iff, ageFindingsChecked_eq_some_iff, Option.map_eq_some_iff,
    maturityLiftsChecked_eq_some_iff]
  constructor
  · rintro ⟨_, ⟨hage, rfl⟩, _, ⟨hmature, rfl⟩, rfl⟩
    exact ⟨hage, hmature, rfl⟩
  · rintro ⟨hage, hmature, rfl⟩
    exact ⟨_, ⟨hage, rfl⟩, _, ⟨hmature, rfl⟩, rfl⟩

end Panics

section Folding
variable (policy : SecurityPolicy)

theorem foldOne_state (folded : Folded) (f : Finding) :
    (foldOne policy folded f).state =
      (classify policy f).elim folded.state folded.state.worse := by
  unfold foldOne
  cases classify policy f <;> rfl

theorem worse_eq_denied_iff (a b : VerdictState) :
    a.worse b = .denied ↔ a = .denied ∨ b = .denied := by
  cases a <;> cases b <;> decide

theorem isServed_worse_iff (a b : VerdictState) :
    (a.worse b).isServed = true ↔ a.isServed = true ∧ b.isServed = true := by
  cases a <;> cases b <;> decide

theorem foldl_denied_iff (folded : Folded) (findings : List Finding) :
    (findings.foldl (foldOne policy) folded).state = .denied ↔
      folded.state = .denied ∨ ∃ f ∈ findings, classify policy f = some .denied := by
  induction findings generalizing folded with
  | nil => simp
  | cons f rest ih =>
    rw [List.foldl_cons, ih, foldOne_state]
    cases hf : classify policy f with
    | none => simp [hf]
    | some effect =>
      simp only [Option.elim_some, worse_eq_denied_iff, List.mem_cons, exists_eq_or_imp, hf,
        Option.some.injEq, or_assoc]

/-- A denial is somebody's: some finding denies. -/
theorem fold_denied_iff (findings : List Finding) :
    (fold policy findings).state = .denied ↔
      ∃ f ∈ findings, classify policy f = some .denied := by
  simp [fold, foldl_denied_iff]

theorem foldl_served_iff (folded : Folded) (findings : List Finding) :
    (findings.foldl (foldOne policy) folded).state.isServed = true ↔
      folded.state.isServed = true ∧
        ∀ f ∈ findings, ∀ effect, classify policy f = some effect → effect.isServed = true := by
  induction findings generalizing folded with
  | nil => simp
  | cons f rest ih =>
    rw [List.foldl_cons, ih, foldOne_state]
    cases hf : classify policy f with
    | none => simp [hf]
    | some effect =>
      simp only [Option.elim_some, isServed_worse_iff, List.mem_cons, forall_eq_or_imp, hf,
        Option.some.injEq, forall_eq', and_assoc]

/-- The state is served exactly when no finding denies and none holds. -/
theorem fold_served_iff (findings : List Finding) :
    (fold policy findings).state.isServed = true ↔
      ∀ f ∈ findings, ∀ effect, classify policy f = some effect → effect.isServed = true := by
  rw [fold, foldl_served_iff]
  simp [VerdictState.isServed]

theorem mem_foldl_codes (folded : Folded) (findings : List Finding) (c : ReasonCode) :
    c ∈ (findings.foldl (foldOne policy) folded).codes ↔
      c ∈ folded.codes ∨ ∃ f ∈ findings, f.code = c ∧ classify policy f ≠ none := by
  induction findings generalizing folded with
  | nil => simp
  | cons f rest ih =>
    rw [List.foldl_cons, ih]
    have hone : c ∈ (foldOne policy folded f).codes ↔
        c ∈ folded.codes ∨ f.code = c ∧ classify policy f ≠ none := by
      unfold foldOne
      cases hf : classify policy f with
      | none => simp
      | some effect =>
        dsimp only
        by_cases hmem : f.code ∈ folded.codes
        · rw [if_pos hmem]
          constructor
          · exact .inl
          · intro hcase
            rcases hcase with hc | ⟨rfl, -⟩
            · exact hc
            · exact hmem
        · simp [if_neg hmem, eq_comm]
    rw [hone]
    simp only [List.mem_cons, exists_eq_or_imp, or_assoc]

theorem mem_fold_codes (findings : List Finding) (c : ReasonCode) :
    c ∈ (fold policy findings).codes ↔
      ∃ f ∈ findings, f.code = c ∧ classify policy f ≠ none := by
  simp [fold, mem_foldl_codes]

theorem foldl_holdCodes (folded : Folded) (findings : List Finding) :
    (findings.foldl (foldOne policy) folded).holdCodes =
      folded.holdCodes ++
        (findings.filter fun f => classify policy f = some .quarantined).map (·.code) := by
  induction findings generalizing folded with
  | nil => simp
  | cons f rest ih =>
    rw [List.foldl_cons, ih]
    have hone : (foldOne policy folded f).holdCodes =
        folded.holdCodes ++ if classify policy f = some .quarantined then [f.code] else [] := by
      unfold foldOne
      cases hf : classify policy f with
      | none => simp
      | some effect =>
        by_cases heffect : effect = .quarantined
        · simp [heffect]
        · simp [heffect]
    rw [hone, List.filter_cons, List.append_assoc]
    by_cases hf : classify policy f = some .quarantined
    · simp [hf]
    · simp [hf]

/-- The codes that hold are those of the findings that hold. -/
theorem fold_holdCodes (findings : List Finding) :
    (fold policy findings).holdCodes =
      (findings.filter fun f => classify policy f = some .quarantined).map (·.code) := by
  simp [fold, foldl_holdCodes]

/-- The lift has come: there is one, and it is not after `t`. -/
def liftedBy (t : DateTime) (lift : Option DateTime) : Bool := lift.any fun at_ => decide (at_ ≤ t)

theorem isSome_laterLift (current lift : Option DateTime) :
    (laterLift current lift).isSome = true ↔ current.isSome = true ∨ lift.isSome = true := by
  cases current <;> cases lift <;> simp [laterLift]

theorem laterLift_le_iff (t : DateTime) (current lift : Option DateTime) :
    (∀ a, laterLift current lift = some a → a ≤ t) ↔
      (∀ a, current = some a → a ≤ t) ∧ ∀ a, lift = some a → a ≤ t := by
  cases current with
  | none => cases lift <;> simp [laterLift]
  | some cur =>
    cases lift with
    | none => simp [laterLift]
    | some at_ =>
      simp only [laterLift, Option.elim_some, Option.some.injEq, forall_eq']
      exact Int.max_le

theorem foldl_liftedBy (t : DateTime) (folded : Folded) (findings : List Finding) :
    liftedBy t (findings.foldl (foldOne policy) folded).availableAt = true ↔
      (folded.availableAt.isSome = true ∨
        ∃ f ∈ findings, classify policy f = some .quarantined ∧ f.availableAt.isSome = true) ∧
      (∀ a, folded.availableAt = some a → a ≤ t) ∧
        ∀ f ∈ findings, classify policy f = some .quarantined →
          ∀ a, f.availableAt = some a → a ≤ t := by
  induction findings generalizing folded with
  | nil => cases h : folded.availableAt <;> simp [liftedBy, h]
  | cons f rest ih =>
    rw [List.foldl_cons, ih]
    by_cases hf : classify policy f = some .quarantined
    · have hone : (foldOne policy folded f).availableAt =
          laterLift folded.availableAt f.availableAt := by
        simp [foldOne, hf]
      rw [hone]
      rw [isSome_laterLift, laterLift_le_iff]
      simp only [List.mem_cons, exists_eq_or_imp, forall_eq_or_imp, hf, true_and, forall_const,
        or_assoc, and_assoc]
    · have hone : (foldOne policy folded f).availableAt = folded.availableAt := by
        unfold foldOne
        cases hc : classify policy f with
        | none => rfl
        | some effect =>
          have heffect : effect ≠ .quarantined := by
            intro heq
            exact hf (by rw [hc, heq])
          simp [heffect]
      rw [hone]
      simp only [List.mem_cons, exists_eq_or_imp, forall_eq_or_imp, hf, false_and, false_or,
        false_imp_iff, true_and]

/-- The lift of a fold: every finding that holds and names a lift has lifted. -/
theorem fold_liftedBy (t : DateTime) (findings : List Finding) :
    liftedBy t (fold policy findings).availableAt = true ↔
      (∃ f ∈ findings, classify policy f = some .quarantined ∧ f.availableAt.isSome = true) ∧
        ∀ f ∈ findings, classify policy f = some .quarantined →
          ∀ a, f.availableAt = some a → a ≤ t := by
  simp [fold, foldl_liftedBy]

end Folding

section Escalation

/-- The same finding, at its severity or a higher one. -/
def Raised (f g : Finding) : Prop :=
  ∃ severity, f.severity ≤ severity ∧ g = { f with severity := severity }

theorem Raised.refl (f : Finding) : Raised f f := ⟨f.severity, Nat.le_refl _, rfl⟩

theorem Raised.trans {f g h : Finding} (hfg : Raised f g) (hgh : Raised g h) : Raised f h := by
  obtain ⟨s, hs, rfl⟩ := hfg
  obtain ⟨t, ht, rfl⟩ := hgh
  exact ⟨t, Nat.le_trans hs ht, rfl⟩

theorem raised_raiseTo (severity : Severity) (f : Finding) : Raised f (raiseTo severity f) := by
  unfold raiseTo
  split
  · rename_i hlt
    exact ⟨severity, Nat.le_of_lt hlt, rfl⟩
  · exact Raised.refl f

/-- How many of the findings a block counts. -/
def hitCount (findings : List Finding) (scanner : String) (esc : Escalation) : ℕ :=
  (findings.filter (hits scanner esc)).length

/-- What a block that counted `n` findings makes of one of them. -/
def escalatedBlock (n : ℕ) (scanner : String) (esc : Escalation) (f : Finding) : Finding :=
  if max esc.count 1 ≤ n ∧ hits scanner esc f = true then raiseTo esc.raised f else f

/-- What the blocks make of one of the findings: its scanner's own block decides. -/
def escalatedBy (blocks : List (Sigma fun _ : String => Escalation)) (findings : List Finding)
    (f : Finding) : Finding :=
  match blocks.dlookup f.scanner with
  | none => f
  | some esc => escalatedBlock (hitCount findings f.scanner esc) f.scanner esc f

theorem escalateBlock_eq_map (findings : List Finding) (scanner : String) (esc : Escalation) :
    escalateBlock findings scanner esc =
      findings.map (escalatedBlock (hitCount findings scanner esc) scanner esc) := by
  unfold escalateBlock escalatedBlock hitCount
  split
  · rename_i henough
    simp only [henough, true_and]
  · rename_i henough
    simp [henough]

theorem raised_escalatedBlock (n : ℕ) (scanner : String) (esc : Escalation) (f : Finding) :
    Raised f (escalatedBlock n scanner esc f) := by
  unfold escalatedBlock
  split
  · exact raised_raiseTo esc.raised f
  · exact Raised.refl f

theorem Raised.scanner_eq {f g : Finding} (h : Raised f g) : g.scanner = f.scanner := by
  obtain ⟨severity, -, rfl⟩ := h
  rfl

theorem Raised.code_eq {f g : Finding} (h : Raised f g) : g.code = f.code := by
  obtain ⟨severity, -, rfl⟩ := h
  rfl

theorem Raised.kind_eq {f g : Finding} (h : Raised f g) : g.kind = f.kind := by
  obtain ⟨severity, -, rfl⟩ := h
  rfl

theorem escalatedBlock_of_ne {scanner : String} {f : Finding} (h : f.scanner ≠ scanner) (n : ℕ)
    (esc : Escalation) : escalatedBlock n scanner esc f = f := by
  simp [escalatedBlock, hits, h]

/-- A block leaves what another scanner's block counts as it is. -/
theorem hits_escalatedBlock_of_ne {scanner other : String} (h : other ≠ scanner) (n : ℕ)
    (esc esc' : Escalation) (f : Finding) :
    hits other esc' (escalatedBlock n scanner esc f) = hits other esc' f := by
  by_cases hf : f.scanner = scanner
  · have hother : f.scanner ≠ other := by
      rw [hf]
      exact h.symm
    simp [hits, (raised_escalatedBlock n scanner esc f).scanner_eq, hother]
  · rw [escalatedBlock_of_ne hf]

/-- A change that a block does not see leaves its count. -/
theorem hitCount_map_of_forall {scanner : String} {esc : Escalation} (g : Finding → Finding)
    (findings : List Finding) (h : ∀ f, hits scanner esc (g f) = hits scanner esc f) :
    hitCount (findings.map g) scanner esc = hitCount findings scanner esc := by
  unfold hitCount
  rw [List.filter_map, List.length_map]
  congr 1
  exact List.filter_congr fun f _ => h f

theorem foldl_escalateBlock (blocks : List (Sigma fun _ : String => Escalation))
    (hnodup : blocks.NodupKeys) (findings : List Finding) :
    blocks.foldl (fun fs e => escalateBlock fs e.1 e.2) findings =
      findings.map (escalatedBy blocks findings) := by
  induction blocks generalizing findings with
  | nil =>
    have hsame : escalatedBy [] findings = id := by
      funext f
      rfl
    rw [hsame, List.map_id]
    rfl
  | cons block rest ih =>
    obtain ⟨scanner, esc⟩ := block
    obtain ⟨hfresh, hrest⟩ := List.nodupKeys_cons.mp hnodup
    rw [List.foldl_cons, ih hrest, escalateBlock_eq_map, List.map_map]
    apply List.map_congr_left
    intro f _
    rw [Function.comp_apply]
    by_cases hf : f.scanner = scanner
    · subst hf
      have hnone : rest.dlookup f.scanner = none := List.dlookup_eq_none.mpr hfresh
      have hscanner := (raised_escalatedBlock (hitCount findings f.scanner esc) f.scanner esc
        f).scanner_eq
      rw [escalatedBy, hscanner, hnone, escalatedBy, List.dlookup_cons_eq]
    · rw [escalatedBlock_of_ne hf]
      unfold escalatedBy
      rw [List.dlookup_cons_ne _ _ hf]
      cases rest.dlookup f.scanner with
      | none => rfl
      | some esc' =>
        dsimp only
        rw [hitCount_map_of_forall _ _ (hits_escalatedBlock_of_ne hf _ esc esc')]

theorem escalate_eq_map (policy : SecurityPolicy) (findings : List Finding) :
    escalate policy findings =
      findings.map (escalatedBy policy.escalation.entries findings) :=
  foldl_escalateBlock _ policy.escalation.nodupKeys findings

theorem raised_escalatedBy (blocks : List (Sigma fun _ : String => Escalation))
    (findings : List Finding) (f : Finding) : Raised f (escalatedBy blocks findings f) := by
  unfold escalatedBy
  split
  · exact Raised.refl f
  · exact raised_escalatedBlock _ _ _ f

/-- Escalation keeps every finding, and raises it at most. -/
theorem exists_raised_of_mem {policy : SecurityPolicy} {findings : List Finding} {f : Finding}
    (h : f ∈ findings) : ∃ g ∈ escalate policy findings, Raised f g := by
  rw [escalate_eq_map]
  exact ⟨_, List.mem_map_of_mem h, raised_escalatedBy _ _ f⟩

/-- Escalation makes no finding up. -/
theorem exists_of_mem_escalate {policy : SecurityPolicy} {findings : List Finding} {g : Finding}
    (h : g ∈ escalate policy findings) : ∃ f ∈ findings, Raised f g := by
  rw [escalate_eq_map] at h
  obtain ⟨f, hf, rfl⟩ := List.mem_map.mp h
  exact ⟨f, hf, raised_escalatedBy _ _ f⟩

theorem hits_raiseTo {scanner : String} {esc : Escalation} {f : Finding} (severity : Severity)
    (h : hits scanner esc f = true) : hits scanner esc (raiseTo severity f) = true := by
  unfold raiseTo
  split
  · rename_i hlt
    simp only [hits, Bool.and_eq_true, decide_eq_true_eq] at h ⊢
    exact ⟨h.1, Nat.le_trans h.2 (Nat.le_of_lt hlt)⟩
  · exact h

theorem hits_escalatedBlock (n : ℕ) (scanner : String) (esc : Escalation) (f : Finding) :
    hits scanner esc (escalatedBlock n scanner esc f) = hits scanner esc f := by
  unfold escalatedBlock
  split
  · rename_i h
    rw [hits_raiseTo esc.raised h.2, h.2]
  · rfl

theorem raiseTo_raiseTo (severity : Severity) (f : Finding) :
    raiseTo severity (raiseTo severity f) = raiseTo severity f := by
  unfold raiseTo
  split
  · simp [show ¬ severity < severity from Nat.lt_irrefl _]
  · simp

/-- A finding's own block counts the same before and after escalation. -/
theorem hits_escalatedBy {blocks : List (Sigma fun _ : String => Escalation)} {scanner : String}
    {esc : Escalation} (hblock : blocks.dlookup scanner = some esc) (findings : List Finding)
    (f : Finding) : hits scanner esc (escalatedBy blocks findings f) = hits scanner esc f := by
  by_cases hf : f.scanner = scanner
  · subst hf
    simp only [escalatedBy, hblock, hits_escalatedBlock]
  · simp [hits, (raised_escalatedBy blocks findings f).scanner_eq, hf]

/-- Findings with the same counts are escalated alike. -/
theorem escalatedBy_congr {blocks : List (Sigma fun _ : String => Escalation)}
    {before after : List Finding} (f : Finding)
    (hcount : ∀ scanner esc, blocks.dlookup scanner = some esc →
      hitCount after scanner esc = hitCount before scanner esc) :
    escalatedBy blocks after f = escalatedBy blocks before f := by
  unfold escalatedBy
  cases hblock : blocks.dlookup f.scanner with
  | none => rfl
  | some esc =>
    dsimp only
    rw [hcount f.scanner esc hblock]

/-- What the blocks make of a finding they have escalated before. -/
theorem escalatedBy_escalatedBy {blocks : List (Sigma fun _ : String => Escalation)}
    {before after : List Finding} (f : Finding)
    (hcount : ∀ scanner esc, blocks.dlookup scanner = some esc →
      hitCount after scanner esc = hitCount before scanner esc) :
    escalatedBy blocks after (escalatedBy blocks before f) = escalatedBy blocks before f := by
  rw [escalatedBy_congr _ hcount]
  have hscanner := (raised_escalatedBy blocks before f).scanner_eq
  cases hblock : blocks.dlookup f.scanner with
  | none =>
    have hsame : escalatedBy blocks before f = f := by
      rw [escalatedBy, hblock]
    rw [hsame, hsame]
  | some esc =>
    have hval : escalatedBy blocks before f =
        escalatedBlock (hitCount before f.scanner esc) f.scanner esc f := by
      rw [escalatedBy, hblock]
    rw [escalatedBy, hscanner, hblock]
    dsimp only
    rw [hval, escalatedBlock, hits_escalatedBlock, escalatedBlock]
    split
    · exact raiseTo_raiseTo esc.raised f
    · rfl

/-- Findings escalated before are escalated again, among others, as they were. -/
theorem escalate_append_escalated (policy : SecurityPolicy) (new old : List Finding) :
    escalate policy (new ++ old.map (escalatedBy policy.escalation.entries (new ++ old))) =
      escalate policy (new ++ old) := by
  have hcount : ∀ scanner esc, policy.escalation.entries.dlookup scanner = some esc →
      hitCount (new ++ old.map (escalatedBy policy.escalation.entries (new ++ old))) scanner esc =
        hitCount (new ++ old) scanner esc := by
    intro scanner esc hblock
    have hold := hitCount_map_of_forall _ old (hits_escalatedBy hblock (new ++ old))
    unfold hitCount at hold ⊢
    rw [List.filter_append, List.filter_append, List.length_append, List.length_append, hold]
  rw [escalate_eq_map, escalate_eq_map, List.map_append, List.map_append, List.map_map]
  congr 1
  · apply List.map_congr_left
    intro f _
    exact escalatedBy_congr f hcount
  · apply List.map_congr_left
    intro f _
    exact escalatedBy_escalatedBy f hcount

/-- Escalating twice is escalating once. -/
theorem escalate_escalate (policy : SecurityPolicy) (findings : List Finding) :
    escalate policy (escalate policy findings) = escalate policy findings := by
  have hagain := escalate_append_escalated policy [] findings
  rw [List.nil_append, List.nil_append, ← escalate_eq_map] at hagain
  exact hagain

end Escalation

section Evaluating
variable {package : PackageMetadata} {findings : List Finding} {done : List String}
  {policy : SecurityPolicy} {now : DateTime} {lastScannedAt : Option DateTime}

theorem mem_content {f : Finding} {findings : List Finding} :
    f ∈ content findings ↔
      f ∈ findings ∧ f.scanner ≠ ageScanner ∧ f.scanner ≠ pendingScanner := by
  simp [content]

theorem ageFindings_cases {f : Finding} (h : f ∈ ageFindings package policy now) :
    f = timestampMissingFinding ∨ ∃ published, f = minAgeFinding policy published now := by
  unfold ageFindings at h
  split at h
  · split at h
    · exact .inl (List.mem_singleton.mp h)
    · simp at h
  · rename_i published hpub
    split at h
    · simp at h
    · exact .inr ⟨published, List.mem_singleton.mp h⟩

theorem scanner_of_mem_ageFindings {f : Finding} (h : f ∈ ageFindings package policy now) :
    f.scanner = ageScanner := by
  obtain rfl | ⟨published, rfl⟩ := ageFindings_cases h
  · rfl
  · rfl

theorem scanner_of_mem_pendingFindings {f : Finding} (h : f ∈ pendingFindings policy done) :
    f.scanner = pendingScanner := by
  obtain ⟨s, -, rfl⟩ := List.mem_map.mp h
  rfl

theorem content_escalate_content (policy : SecurityPolicy) (findings : List Finding) :
    content (escalate policy (content findings)) = escalate policy (content findings) := by
  apply List.filter_eq_self.mpr
  intro g hg
  obtain ⟨f, hf, hraised⟩ := exists_of_mem_escalate hg
  have hclock := (mem_content.mp hf).2
  simp [hraised.scanner_eq, hclock]

/-- An evaluation replaces the clock's findings and escalates the others. -/
theorem content_judged :
    content (judged package findings done policy now) = escalate policy (content findings) := by
  have hage : content (ageFindings package policy now) = [] := by
    apply List.filter_eq_nil_iff.mpr
    intro f hf
    simp [scanner_of_mem_ageFindings hf]
  have hpending : content (pendingFindings policy done) = [] := by
    apply List.filter_eq_nil_iff.mpr
    intro f hf
    simp [scanner_of_mem_pendingFindings hf]
  have happend : ∀ a b : List Finding, content (a ++ b) = content a ++ content b :=
    fun a b => List.filter_append a b
  rw [judged, happend, happend, hage, hpending, content_escalate_content, List.append_nil,
    List.append_nil]

/-- Judging what was judged, with the same policy, changes only the clock's part. -/
theorem judged_judged (now' : DateTime) (done' : List String) :
    judged package (judged package findings done policy now) done' policy now' =
      judged package findings done' policy now' := by
  unfold judged
  rw [show escalate policy (content findings) ++ ageFindings package policy now ++
    pendingFindings policy done = judged package findings done policy now from rfl,
    content_judged, escalate_escalate]

theorem threshold_of_le {a b : Severity} (hle : a ≤ b) {effect : VerdictState}
    (h : threshold a policy = some effect) : threshold b policy = some effect := by
  unfold threshold at h ⊢
  split at h
  · simp at h
  · rename_i ha
    have hb : ¬ b < policy.maxSeverity := by
      intro hlt
      exact ha (Nat.lt_of_le_of_lt hle hlt)
    rw [if_neg hb]
    exact h

theorem forgeRefEffect_denied_of_raised {f g : Finding} (hraised : Raised f g)
    (h : forgeRefEffect f policy = some .denied) : forgeRefEffect g policy = some .denied := by
  obtain ⟨severity, hle, rfl⟩ := hraised
  unfold forgeRefEffect at h ⊢
  have hcritical : f.severity = .critical := by
    cases hs : f.severity <;> cases hm : policy.mode <;> simp [hs, hm] at h ⊢
  rw [hcritical] at hle h
  have htop : severity = .critical := by
    cases severity <;> first | rfl | exact absurd hle (by decide)
  rw [htop]
  exact h

/-- What denies denies also at a higher severity. -/
theorem classify_denied_of_raised {f g : Finding} (hraised : Raised f g)
    (h : classify policy f = some .denied) : classify policy g = some .denied := by
  have hseverity : f.severity ≤ g.severity := by
    obtain ⟨severity, hle, rfl⟩ := hraised
    exact hle
  unfold classify at h ⊢
  rw [hraised.code_eq]
  split
  · rfl
  · rename_i halways
    rw [if_neg halways] at h
    cases hcode : f.code <;> simp only [hcode] at h ⊢ <;>
      first
      | exact h
      | exact threshold_of_le hseverity h
      | exact forgeRefEffect_denied_of_raised hraised h

theorem classify_alwaysDenied {f : Finding} (h : f.code.isAlwaysDenied = true) :
    classify policy f = some .denied := by
  simp [classify, h]

theorem maturityLifts_quarantined {folded : Folded}
    (h : maturityLifts folded package policy now = true) : folded.state = .quarantined := by
  unfold maturityLifts at h
  split at h
  · simp at h
  · rename_i hcond
    by_contra hne
    exact hcond (.inl hne)

theorem evaluate_denied_iff :
    (evaluate package findings done policy now lastScannedAt).state = .denied ↔
      ∃ f ∈ judged package findings done policy now, classify policy f = some .denied := by
  rw [← fold_denied_iff]
  simp only [evaluate]
  split
  · rename_i hlift
    have hheld := maturityLifts_quarantined hlift
    simp [hheld]
  · exact Iff.rfl

/-- A finding that denies denies the verdict, whatever the clock says. -/
theorem evaluate_denied_of_mem {f : Finding} (hmem : f ∈ content findings)
    (h : classify policy f = some .denied) :
    (evaluate package findings done policy now lastScannedAt).state = .denied := by
  rw [evaluate_denied_iff]
  obtain ⟨g, hg, hraised⟩ : ∃ g ∈ escalate policy (content findings), Raised f g :=
    exists_raised_of_mem hmem
  refine ⟨g, ?_, classify_denied_of_raised hraised h⟩
  simp only [judged, List.mem_append]
  exact .inl (.inl hg)

end Evaluating

end BatleHub.VerdictEvaluation
