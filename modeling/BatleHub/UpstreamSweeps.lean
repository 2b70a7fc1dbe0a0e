import BatleHub.UpstreamProbes

/-!
The state machine of the upstream audit (`services/upstream_audit`) over the in-memory
status rows: the population gate, then a miss recorded or confirmed for what is missing
and a clear for what is there. A sweep of a registry goes over the packages that the
inventory groups its rows into.
-/
namespace BatleHub.UpstreamAudit

open Lib AssocMap
open LocalPackages (DateTime)

inductive UpstreamState where
  | missing
  | disappeared
  deriving DecidableEq

/-- A row of `upstream_status`. Without a version it is the whole package's. -/
structure UpstreamStatus where
  registry : String
  packageName : String
  version : Option String
  state : UpstreamState
  firstMissedAt : DateTime
  lastCheckedAt : DateTime
  confirmedAt : Option DateTime
  consecutiveMisses : ℕ
  deriving DecidableEq

abbrev Key := String × String × Option String

abbrev Rows := Assoc Key UpstreamStatus

/-- A row with one more miss. The counter has 32 bits. -/
def countMiss (key : Key) (now : DateTime) : Option UpstreamStatus → UpstreamStatus
  | some row =>
    { row with
      consecutiveMisses := (row.consecutiveMisses + 1) % 2 ^ 32
      lastCheckedAt := now }
  | none => ⟨key.1, key.2.1, key.2.2, .missing, now, now, none, 1⟩

def recordMiss (key : Key) (now : DateTime) (rows : Rows) : UpstreamStatus × Rows :=
  let row := countMiss key now (rows.lookup key)
  (row, rows.insert key row)

def confirm (key : Key) (now : DateTime) (rows : Rows) : Except CoreError Rows :=
  match rows.lookup key with
  | none => .error (.notFound ("no upstream_status row for " ++ key.1 ++ "/" ++ key.2.1))
  | some row =>
    .ok (rows.insert key
      { row with state := .disappeared, confirmedAt := some (row.confirmedAt.getD now) })

def clearRow (key : Key) (rows : Rows) : Option UpstreamStatus × Rows :=
  (rows.lookup key, rows.erase key)

structure UpstreamAuditPolicy where
  confirmAfter : ℕ
  /-- In the units of an instant. -/
  confirmMinAge : ℕ
  /-- The share of the missing in the conclusive is above `outage_ratio`, as binary64
  numbers divide and compare. -/
  aboveOutageRatio : ℕ → ℕ → Bool
  skipRecentlySeen : Bool

inductive Transition where
  | confirmed (row : UpstreamStatus) (versions : List String)
  | reappeared (row : UpstreamStatus) (versions : List String)

structure Applied where
  missing : ℕ
  inconclusive : ℕ
  capped : ℕ
  void : Bool
  transitions : List Transition
  disappeared : List UpstreamStatus

def Applied.empty : Applied := ⟨0, 0, 0, false, [], []⟩

/-- A package of a sweep: its held versions, and what the probe said and whether the cap
bound it. -/
structure Probed where
  name : String
  versions : List String
  outcome : ProbeOutcome
  capped : Bool

def MIN_PROBED_FOR_RATIO : ℕ := 10

/-- Count what the probes said, before anything is written. -/
def tally (outcomes : List Probed) (applied : Applied) : ℕ × Applied :=
  outcomes.foldl
    (fun acc p =>
      let applied := if p.capped then { acc.2 with capped := acc.2.capped + 1 } else acc.2
      match p.outcome with
      | .inconclusive _ => (acc.1, { applied with inconclusive := applied.inconclusive + 1 })
      | outcome =>
        (acc.1 + 1,
          if outcome.isMissing then { applied with missing := applied.missing + 1 } else applied))
    (0, applied)

section Apply
variable (policy : UpstreamAuditPolicy) (registry : String) (now : DateTime)

/-- The rows, and what the sweep has to report. -/
abbrev Sweeping := Rows × Applied

/-- A successful probe clears the row. -/
def clear (name : String) (version : Option String) (covered : List String) (s : Sweeping) :
    Sweeping :=
  match clearRow (registry, name, version) s.1 with
  | (some row, rows) =>
    (rows, { s.2 with transitions := s.2.transitions ++ [.reappeared row covered] })
  | (none, rows) => (rows, s.2)

/-- No two instants are as far apart as the duration that an unrepresentable age stands
for. -/
def ageOk (firstMissedAt : DateTime) : Bool := decide ((policy.confirmMinAge : ℤ) ≤ now - firstMissedAt)

def miss (name : String) (version : Option String) (covered : List String) (s : Sweeping) :
    Sweeping :=
  let key : Key := (registry, name, version)
  let (row, rows) := recordMiss key now s.1
  if row.state = .disappeared then
    (rows, { s.2 with disappeared := s.2.disappeared ++ [row] })
  else if policy.confirmAfter ≤ row.consecutiveMisses ∧ ageOk policy now row.firstMissedAt = true then
    match confirm key now rows with
    | .error _ => (rows, s.2)
    | .ok rows =>
      let confirmed := { row with state := .disappeared, confirmedAt := some now }
      (rows,
        { s.2 with
          disappeared := s.2.disappeared ++ [confirmed]
          transitions := s.2.transitions ++ [.confirmed confirmed covered] })
  else (rows, s.2)

/-- A package the probe found: its row and those of the probed versions clear. -/
def present (name : String) (versions : List String) (s : Sweeping) : Sweeping :=
  (versions.take MAX_VERSION_PROBES_PER_PACKAGE).foldl
    (fun s v => clear registry name (some v) [v] s) (clear registry name none versions s)

/-- A package that is still there with some versions gone. -/
def missingVersions (name : String) (versions missing : List String) (s : Sweeping) : Sweeping :=
  versions.foldl
    (fun s v =>
      if v ∈ missing then miss policy registry now name (some v) [v] s
      else clear registry name (some v) [v] s)
    (clear registry name none versions s)

def applyOne (s : Sweeping) (p : Probed) : Sweeping :=
  match p.outcome with
  | .inconclusive _ => s
  | .present => present registry p.name p.versions s
  | .missingPackage => miss policy registry now p.name none p.versions s
  | .missingVersions missing => missingVersions policy registry now p.name p.versions missing s

/-- The population gate. -/
def voids (outcomes : List Probed) : Bool :=
  let (conclusive, applied) := tally outcomes .empty
  decide ( MIN_PROBED_FOR_RATIO ≤ conclusive) && policy.aboveOutageRatio applied.missing conclusive

/-- Apply one registry's probe outcomes to the store. -/
def apply (outcomes : List Probed) (rows : Rows) : Sweeping :=
  let (_, applied) := tally outcomes .empty
  if voids policy outcomes then (rows, { applied with void := true })
  else outcomes.foldl (applyOne policy registry now) (rows, applied)

end Apply

/-- The fields of an inventory row that a sweep reads. -/
structure ArtifactMeta where
  artifactKey : String
  registry : String
  packageName : String
  version : String
  cachedAt : DateTime

/-- The version that the audit carries for one inventory row; for a path-addressed kind
the file's path in the upstream. -/
def heldVersion (kind : RegistryKind) (row : ArtifactMeta) : Option String :=
  if !isPathAddressed kind then some row.version
  else
    let key := (Texts.stripPrefix row.artifactKey "artifact:").getD row.artifactKey
    (Texts.stripPrefix key
      (row.registry ++ "/" ++ PATH_KIND_PACKAGE ++ "/" ++ PATH_KIND_VERSION ++ "/")).filter
      fun p => decide (p ≠ "")

/-- A registry's cached packages: the versions of each, and when the newest was cached. -/
abbrev CachedPackages := Assoc String (List String × DateTime)

def addHeld (row : ArtifactMeta) (version : String) (packages : CachedPackages) : CachedPackages :=
  let entry := (packages.lookup row.packageName).getD ([], row.cachedAt)
  packages.insert row.packageName (entry.1 ++ [version], max entry.2 row.cachedAt)

/-- One registry's turn in a sweep, or a recheck of one package. -/
structure Pass where
  registry : String
  packages : CachedPackages
  previousStart : Option DateTime
  client : Option RegistryClient
  now : DateTime

/-- The packages of the pass that are probed, with what their probes said. The packages
are walked in the order of the entries. -/
def Pass.outcomes (policy : UpstreamAuditPolicy) (pass : Pass) (client : RegistryClient) :
    List Probed :=
  (pass.packages.entries.filter fun e =>
    !(policy.skipRecentlySeen && pass.previousStart.any fun p => decide (p < e.2.2))).map fun e =>
      let (outcome, capped) := probePackage client pass.registry e.1 e.2.1
      ⟨e.1, e.2.1, outcome, capped⟩

/-- One registry: probe, gate, apply. -/
def sweepRegistry (policy : UpstreamAuditPolicy) (pass : Pass) (rows : Rows) : Sweeping :=
  match pass.client with
  | none => (rows, .empty)
  | some client => apply policy pass.registry pass.now (pass.outcomes policy client) rows

end BatleHub.UpstreamAudit
