import BatleHub.InMemoryRegistry
import BatleHub.Lib.AssocMap
import BatleHub.Lib.Runs
import BatleHub.Vocabulary
import Mathlib.Data.List.Sort

/-!
A retention run over the locally published versions of one registry
(`services/retention`), taken step by step between the calls of others. The versions of a
package are judged from one reading; what no condition keeps is deleted afterwards, one
version at a time. A pin is one update of the row.
-/
namespace BatleHub.Retention

open Lib AssocMap
open LocalPackages (DateTime)

/-- The `Display` text of an error. -/
def displayError : CoreError → String
  | .notFound m => "Package not found: " ++ m
  | .notFoundWithheld m => "Package not found: " ++ m
  | .storage m => "Storage error: " ++ m
  | .registry m => "Registry error: " ++ m
  | .database m => "Database error: " ++ m
  | .accessDenied m => "Access denied: " ++ m
  | .conflict m => "Conflict: " ++ m
  | .invalidInput m => "Invalid input: " ++ m
  | .payloadTooLarge m => "Payload too large: " ++ m
  | .integrityFailure m => "Integrity check failed: " ++ m
  | .config m => "Invalid configuration: " ++ m
  | .other m => m

section Judging

/-- The keep conditions of one registry. Windows and delays are in nanoseconds. -/
structure RetentionPolicy where
  keepVersions : Option ℕ
  keepFor : Option ℕ
  keepIfPulled : Option ℕ
  keepYanked : Bool
  downloadSignalFloor : DateTime
  reclaimDelay : ℕ
  dryRun : Bool
  deriving DecidableEq, Repr

def RetentionPolicy.reclaimsAnything (policy : RetentionPolicy) : Bool :=
  policy.keepVersions.isSome || policy.keepFor.isSome || policy.keepIfPulled.isSome

inductive KeepReason where
  | pinned
  | keepVersions
  | keepFor
  | keepIfPulled
  | keepYanked
  | beforeSignalFloor
  | noPolicy
  deriving DecidableEq, Repr

/-- What a run reads of a published version. -/
structure PublishedVersion where
  name : String
  version : String
  publishedAt : DateTime
  yanked : Bool
  retentionKeep : Bool
  deriving DecidableEq, Repr

def PublishedVersion.coordinateText (pkg : PublishedVersion) : String :=
  pkg.name ++ "@" ++ pkg.version

structure Candidate where
  pkg : PublishedVersion
  rankFromNewest : ℕ
  lastDownload : Option DateTime
  deriving DecidableEq, Repr

/-- A window too long to convert holds everything. -/
def within (then_ : DateTime) (window : ℕ) (now : DateTime) : Bool :=
  match InMemoryRegistry.fromStd window with
  | none => true
  | some window => decide (now - window ≤ then_)

/-- The union of vetoes: a reason keeps, none reclaims. -/
def RetentionService.decide (candidate : Candidate) (policy : RetentionPolicy) (now : DateTime) :
    Option KeepReason :=
  if !policy.reclaimsAnything then some .noPolicy
  else if candidate.pkg.retentionKeep then some .pinned
  else if policy.keepVersions.any fun n => Decidable.decide (candidate.rankFromNewest < n) then
    some .keepVersions
  else if policy.keepFor.any fun window => within candidate.pkg.publishedAt window now then
    some .keepFor
  else if policy.keepIfPulled.any fun window =>
      candidate.lastDownload.any fun last => within last window now then
    some .keepIfPulled
  else if policy.keepYanked && candidate.pkg.yanked then some .keepYanked
  else if policy.keepIfPulled.isSome && candidate.lastDownload.isNone &&
      Decidable.decide (candidate.pkg.publishedAt < policy.downloadSignalFloor) then
    some .beforeSignalFloor
  else none

structure RetentionDecision where
  name : String
  version : String
  keptBecause : Option KeepReason
  deriving DecidableEq, Repr

structure RetentionReport where
  examined : ℕ
  reclaimed : ℕ
  kept : ℕ
  dryRun : Bool
  reclaimedCoordinates : List String
  decisions : List RetentionDecision
  decisionsTruncated : ℕ
  incompleteBecause : Option String
  deriving DecidableEq, Repr

def RetentionReport.new (dryRun : Bool) : RetentionReport := ⟨0, 0, 0, dryRun, [], [], 0, none⟩

def MAX_REPORTED_DECISIONS : ℕ := 2000

def RetentionReport.record (report : RetentionReport) (pkg : PublishedVersion)
    (decision : Option KeepReason) : RetentionReport :=
  let counted :=
    { report with
      examined := report.examined + 1
      kept := if decision.isNone then report.kept else report.kept + 1 }
  if report.decisions.length < MAX_REPORTED_DECISIONS then
    { counted with decisions := counted.decisions ++ [⟨pkg.name, pkg.version, decision⟩] }
  else { counted with decisionsTruncated := counted.decisionsTruncated + 1 }

def RetentionReport.reclaim (report : RetentionReport) (pkg : PublishedVersion) : RetentionReport :=
  { report with
    reclaimed := report.reclaimed + 1
    reclaimedCoordinates := report.reclaimedCoordinates ++ [pkg.coordinateText] }

/-- The versions are oldest first, so the last one has rank 0. -/
def candidates (versions : List PublishedVersion) (downloads : List (String × DateTime)) :
    List Candidate :=
  versions.zipIdx.map fun e =>
    ⟨e.1, versions.length - 1 - e.2,
      (downloads.find? fun d => d.1 == e.1.version).map Prod.snd⟩

/-- The versions that nothing keeps, in order, and the report with every decision. -/
def RetentionService.judge (versions : List PublishedVersion)
    (downloads : List (String × DateTime)) (policy : RetentionPolicy) (now : DateTime)
    (report : RetentionReport) : List PublishedVersion × RetentionReport :=
  (candidates versions downloads).foldl
    (fun acc c =>
      let decision := RetentionService.decide c policy now
      (if decision.isNone then acc.1 ++ [c.pkg] else acc.1, acc.2.record c.pkg decision))
    ([], report)

end Judging

section Rows

/-- `(registry, name, version)`, the primary key of the table. -/
abbrev Coordinate := String × String × String

/-- A row of the table of local packages, as far as a run and a pin look at it. A row that
is not `published` is pending or deleted. -/
structure LocalRow where
  publishedAt : DateTime
  yanked : Bool
  retentionKeep : Bool
  published : Bool
  deriving DecidableEq, Repr

abbrev Table := Assoc Coordinate LocalRow

def LocalRow.toVersion (row : LocalRow) (c : Coordinate) : PublishedVersion :=
  ⟨c.2.1, c.2.2, row.publishedAt, row.yanked, row.retentionKeep⟩

def listPackageNames (registry : String) (table : Table) : List String :=
  ((table.entries.filter fun e => decide (e.1.1 = registry) && e.2.published).map
    fun e => e.1.2.1).dedup.insertionSort (· ≤ ·)

/-- The published versions of a package, oldest first. -/
def getVersions (registry name : String) (table : Table) : List PublishedVersion :=
  ((table.entries.filter fun e =>
    decide (e.1.1 = registry ∧ e.1.2.1 = name) && e.2.published).map
    fun e => e.2.toVersion e.1).insertionSort fun a b => a.publishedAt ≤ b.publishedAt

def setRetentionKeep (c : Coordinate) (keep : Bool) (table : Table) : Bool × Table :=
  match table.lookup c with
  | some row =>
    if row.published && row.retentionKeep != keep then
      (true, table.insert c { row with retentionKeep := keep })
    else (false, table)
  | none => (false, table)

def tombstoneVersion (c : Coordinate) (table : Table) : Bool × Table :=
  match table.lookup c with
  | some row =>
    if row.published then (true, table.insert c { row with published := false })
    else (false, table)
  | none => (false, table)

end Rows

/-- Where a run stands. The packages after the current one and the condemned versions
after the current one are still to come. -/
inductive Phase where
  | listing
  | nextPackage (names : List String)
  | readingDownloads (name : String) (versions : List PublishedVersion) (names : List String)
  | reclaiming (doomed : List PublishedVersion) (names : List String)
  | deleting (pkg : PublishedVersion) (rest : List PublishedVersion) (names : List String)
  | cleaning (pkg : PublishedVersion) (rest : List PublishedVersion) (names : List String)
  | sleeping (rest : List PublishedVersion) (names : List String)
  | finished (result : Except CoreError RetentionReport)

/-- One call of `run`. -/
structure Job where
  registry : String
  policy : RetentionPolicy
  /-- Whether there is a package repository to ask for downloads. -/
  packages : Bool
  now : DateTime
  report : RetentionReport
  phase : Phase

/-- A version the run tombstoned, and whether it was pinned when its delete began. -/
structure Deletion where
  coordinate : Coordinate
  pinnedAtBegin : Bool
  deriving DecidableEq, Repr

structure World where
  table : Table
  job : Option Job
  /-- The versions whose pin was set by a call that reported a change, and not released. -/
  pins : List Coordinate
  /-- Whether the version being deleted was among them when its delete began. -/
  pinnedAtBegin : Bool
  deletions : List Deletion

def World.initial (table : Table) : World := ⟨table, none, [], false, []⟩

/-- What the next awaited call of the run answers. -/
structure Answer where
  now : DateTime
  failure : Option CoreError
  downloads : List (String × DateTime)

inductive Event where
  /-- `set_retention_pin`; the checks before the update may refuse it. -/
  | setRetentionPin (c : Coordinate) (keep : Bool) (refusal : Option CoreError)
  | start (registry : String) (policy : RetentionPolicy) (packages : Bool)
  | advance (answer : Answer)

section Steps

def noSignalMessage (registry : String) : String :=
  "registry '" ++ registry ++ "': keep_if_pulled_days is configured but this deployment has " ++
    "no package repository, so there is no download signal to read. Retention would " ++
    "reclaim versions it cannot prove are idle; refusing to run"

def stoppedMessage (pkg : PublishedVersion) (e : CoreError) : String :=
  "stopped at " ++ pkg.coordinateText ++ ": " ++ displayError e ++
    ". Everything listed above was reclaimed; nothing after it was attempted."

def Job.new (registry : String) (policy : RetentionPolicy) (packages : Bool) : Job :=
  let report := RetentionReport.new policy.dryRun
  if policy.keepIfPulled.isSome && !packages then
    ⟨registry, policy, packages, 0, report, .finished (.error (.config (noSignalMessage registry)))⟩
  else ⟨registry, policy, packages, 0, report, .listing⟩

def Job.fail (job : Job) (e : CoreError) : Job := { job with phase := .finished (.error e) }

/-- The end of the loop over the packages, reached or broken out of. -/
def Job.finish (job : Job) (report : RetentionReport) : Job :=
  let sorted :=
    { report with reclaimedCoordinates := report.reclaimedCoordinates.insertionSort (· ≤ ·) }
  { job with report := sorted, phase := .finished (.ok sorted) }

/-- `set_retention_pin`, with the pins that are in force after it. -/
def pinStep (w : World) (c : Coordinate) (keep : Bool) :
    Option CoreError → Except CoreError Bool × World
  | some e => (.error e, w)
  | none =>
    let (changed, table) := setRetentionKeep c keep w.table
    (.ok changed,
      { w with
        table := table
        pins :=
          if changed && keep then c :: w.pins
          else if changed then w.pins.filter (· ≠ c)
          else w.pins })

def advanceStep (w : World) (job : Job) (a : Answer) : World :=
  match job.phase with
  | .listing =>
    match a.failure with
    | some e => { w with job := some (job.fail e) }
    | none =>
      { w with
        job := some { job with
          now := a.now
          phase := .nextPackage (listPackageNames job.registry w.table) } }
  | .nextPackage [] => { w with job := some (job.finish job.report) }
  | .nextPackage (name :: names) =>
    match a.failure with
    | some e => { w with job := some (job.fail e) }
    | none =>
      let versions := getVersions job.registry name w.table
      if versions.isEmpty then { w with job := some { job with phase := .nextPackage names } }
      else { w with job := some { job with phase := .readingDownloads name versions names } }
  | .readingDownloads _ versions names =>
    match (if job.packages then a.failure else none) with
    | some e => { w with job := some (job.fail e) }
    | none =>
      let downloads := if job.packages then a.downloads else []
      let (doomed, report) :=
        RetentionService.judge versions downloads job.policy job.now job.report
      { w with job := some { job with report := report, phase := .reclaiming doomed names } }
  | .reclaiming [] names => { w with job := some { job with phase := .nextPackage names } }
  | .reclaiming (pkg :: rest) names =>
    if job.policy.dryRun then
      { w with
        job := some { job with
          report := job.report.reclaim pkg
          phase := .reclaiming rest names } }
    else
      { w with
        job := some { job with phase := .deleting pkg rest names }
        pinnedAtBegin := decide ((job.registry, pkg.name, pkg.version) ∈ w.pins) }
  | .deleting pkg rest names =>
    -- The checks of the delete, then its update of the row.
    match a.failure with
    | some e =>
      { w with
        job := some (job.finish
          { job.report with incompleteBecause := some (stoppedMessage pkg e) }) }
    | none =>
      let c := (job.registry, pkg.name, pkg.version)
      let (tombstoned, table) := tombstoneVersion c w.table
      { w with
        table := table
        job := some { job with phase := .cleaning pkg rest names }
        deletions := if tombstoned then w.deletions ++ [⟨c, w.pinnedAtBegin⟩] else w.deletions }
  | .cleaning pkg rest names =>
    -- What follows the update does not fail, and touches no row.
    { w with
      job := some { job with
        report := job.report.reclaim pkg
        phase :=
          if job.policy.reclaimDelay = 0 then .reclaiming rest names else .sleeping rest names } }
  | .sleeping rest names => { w with job := some { job with phase := .reclaiming rest names } }
  | .finished _ => w

def step (w : World) : Event → World
  | .setRetentionPin c keep refusal => (pinStep w c keep refusal).2
  | .start registry policy packages =>
    match w.job with
    | none => { w with job := some (Job.new registry policy packages) }
    | some job =>
      match job.phase with
      | .finished _ => { w with job := some (Job.new registry policy packages) }
      | _ => w
  | .advance a =>
    match w.job with
    | none => w
    | some job => advanceStep w job a

abbrev run (w : World) (events : List Event) : World := Runs.run step w events

end Steps

end BatleHub.Retention
