import BatleHub.LocalPackages
import BatleHub.Lib.AssocMap
import Mathlib.Order.Defs.LinearOrder

/-!
The verdict model (`entities/security.rs`): what is known about a version before it
is served. A finding is one thing one scanner said; a verdict folds the findings
into a state, and a policy says what each finding does to it. Instants and
durations are nanoseconds.
-/
namespace BatleHub.Verdicts

open LocalPackages Lib.AssocMap

/-- Declared from least to most severe; the order is that of the variants. -/
inductive Severity where
  | unknown
  | low
  | medium
  | high
  | critical
  deriving DecidableEq, Repr

def Severity.rank : Severity → ℕ
  | .unknown => 0
  | .low => 1
  | .medium => 2
  | .high => 3
  | .critical => 4

instance : LE Severity := ⟨fun a b => a.rank ≤ b.rank⟩

instance : LT Severity := ⟨fun a b => a.rank < b.rank⟩

instance (a b : Severity) : Decidable (a ≤ b) := inferInstanceAs (Decidable (a.rank ≤ b.rank))

instance (a b : Severity) : Decidable (a < b) := inferInstanceAs (Decidable (a.rank < b.rank))

/-- What the proxy does with an artifact. -/
inductive VerdictState where
  | allowed
  | warned
  | quarantined
  | denied
  deriving DecidableEq, Repr

namespace VerdictState

def isServed : VerdictState → Bool
  | allowed => true
  | warned => true
  | quarantined => false
  | denied => false

def rank : VerdictState → ℕ
  | allowed => 0
  | warned => 1
  | quarantined => 2
  | denied => 3

/-- The worse of two states; the first where they are equally bad. -/
def worse (a b : VerdictState) : VerdictState := if a.rank < b.rank then b else a

end VerdictState

/-- The closed set of reasons a verdict can carry. -/
inductive ReasonCode where
  | minAgeNotMet
  | timestampMissing
  | scanPending
  | scannerError
  | scannerUnsupported
  | vulnerability
  | malwareSignal
  | installHook
  | typosquatSuspect
  | publisherChanged
  | installHookAdded
  | repositoryMoved
  | dormantRelease
  | unpublishedUpstream
  | provenanceMissing
  | provenanceInvalid
  | provenanceUnverifiable
  | provenanceRemoved
  | signatureMissing
  | licenseDenied
  | untrustedPublisher
  | blockList
  | socVerdict
  | adminOverride
  | mutableRef
  | tagMoved
  | assetReplaced
  | pinnedRefRequired
  | rawScript
  deriving DecidableEq, Repr

namespace ReasonCode

/-- A hold that lifts on its own: with the clock, or when a scanner answers. -/
def isTimeBound : ReasonCode → Bool
  | minAgeNotMet => true
  | scanPending => true
  | scannerError => true
  | _ => false

/-- Denied whatever the mode: an administrator's or the SOC's word. -/
def isAlwaysDenied : ReasonCode → Bool
  | blockList => true
  | socVerdict => true
  | _ => false

/-- The codes a version past its maturity is served with. -/
def isMaturityBypassable : ReasonCode → Bool
  | scanPending => true
  | scannerError => true
  | _ => false

end ReasonCode

inductive FindingKind where
  | vulnerability
  | malwareSignal
  | installHook
  | provenance
  | signature
  | license
  | publisher
  | typosquat
  | transition
  | age
  | pending
  | socVerdict
  | scannerError
  | blockList
  | ref
  deriving DecidableEq, Repr

/-- One thing one scanner said about one artifact. -/
structure Finding where
  scanner : String
  kind : FindingKind
  code : ReasonCode
  severity : Severity
  reference : Option String
  summary : String
  confidence : Option UInt8
  availableAt : Option DateTime
  raw : Json
  deriving Repr

/-- A finding with only the fields every one has. -/
def Finding.new (scanner : String) (kind : FindingKind) (code : ReasonCode) (severity : Severity)
    (summary : String) : Finding :=
  ⟨scanner, kind, code, severity, none, summary, none, none, .null⟩

inductive SecurityMode where
  | block
  | warn
  deriving DecidableEq, Repr

/-- The persisted decision about one version. -/
structure Verdict where
  package : PackageId
  state : VerdictState
  reasonCodes : List ReasonCode
  findings : List Finding
  policyRef : String
  availableAt : Option DateTime
  evaluatedAt : DateTime
  lastScannedAt : Option DateTime
  scannersDone : List String
  deriving Repr

namespace Verdict

def isServed (v : Verdict) : Bool := v.state.isServed

/-- Whether the verdict keeps its version out of the listings, judged under the
registry's current mode. -/
def hidesFromListingsUnder (v : Verdict) (now : DateTime) (mode : SecurityMode) : Bool :=
  match v.state with
  | .allowed => false
  | .warned => false
  | .denied =>
    match mode with
    | .block => true
    | .warn => v.reasonCodes.any ReasonCode.isAlwaysDenied
  | .quarantined =>
    let lifted := !v.reasonCodes.isEmpty && v.reasonCodes.all ReasonCode.isTimeBound &&
      v.availableAt.any fun at_ => decide (at_ ≤ now)
    !lifted

end Verdict

/-- What a scanner that crashed or timed out does. -/
inductive ScannerErrorMode where
  | quarantine
  | warn
  | ignore
  deriving DecidableEq, Repr

/-- What an install hook finding does. -/
inductive InstallHookMode where
  | deny
  | warn
  | ignore
  deriving DecidableEq, Repr

/-- `count` findings of `kinds` at or above `lowest`, from one scanner, are raised
to `raised`. -/
structure Escalation where
  kinds : List FindingKind
  count : ℕ
  lowest : Severity
  raised : Severity
  deriving DecidableEq, Repr

/-- One registry's security profile, as the evaluator reads it. A mature age of
zero means that nothing is ever served unscanned. -/
structure SecurityPolicy where
  mode : SecurityMode
  minAge : ℕ
  matureAge : ℕ
  holdMissingTimestamp : Bool
  scanners : List String
  requiredScanners : List String
  maxSeverity : Severity
  requireProvenance : Bool
  denyInstallHooks : InstallHookMode
  scannerError : ScannerErrorMode
  escalation : Assoc String Escalation
  policyRef : String

def nanosPerSecond : ℕ := 1000000000

/-- The profile with only `mode` written: a day of age, and `osv` required. -/
def SecurityPolicy.defaultsFor (registry : String) : SecurityPolicy where
  mode := .block
  minAge := 86400 * nanosPerSecond
  matureAge := 86400 * nanosPerSecond
  holdMissingTimestamp := true
  scanners := ["osv"]
  requiredScanners := ["osv"]
  maxSeverity := .high
  requireProvenance := false
  denyInstallHooks := .warn
  scannerError := .quarantine
  escalation := ∅
  policyRef := registry ++ "/default"

/-- The fields of a version's metadata that the evaluation reads. -/
structure PackageMetadata where
  id : PackageId
  publishedAt : Option DateTime
  deriving DecidableEq, Repr

/-- A verdict is about a version, not a file of it. -/
def coordinateKey (id : PackageId) : PackageId := PackageId.new id.registry id.name id.version

/-- A version published at instant zero, for the concrete cases of later modules. -/
def leftpad : PackageMetadata := ⟨PackageId.new "npm" "left-pad" "1.0.0", some 0⟩

def day : DateTime := 86400 * nanosPerSecond

end BatleHub.Verdicts
