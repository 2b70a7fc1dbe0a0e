import BatleHub.Containment
import BatleHub.Lib.Runs

/-!
Containment against everything else that writes the stored verdict of one version:
reads, worker jobs, other blocks and flags, and their lifting. Each call takes its
store reads and writes one at a time, and any two calls may interleave. A tick counts
the steps; it dates when a containment was stored and placed in the verdict, and when
each reader read.
-/
namespace BatleHub.BlockTraffic

open LocalPackages Verdicts VerdictEvaluation ScanRecords ScanPasses Containment Lib.Runs

/-- A containment asked for: which, the tick its own store was written at, and the
instant it ends by itself. -/
structure Hold where
  key : Key
  since : ℕ
  expiresAt : Option DateTime
  deriving DecidableEq, Repr

/-- Where a call that rewrites the stored verdict stands. -/
inductive Phase where
  | started
  | read (tick : ℕ) (snapshot : Option Verdict)
  | written

/-- A worker's job: what its scanners said so far, and when they read the stores. -/
structure Job where
  id : ℕ
  package : PackageMetadata
  policy : SecurityPolicy
  progress : Progress
  statusAt : Option ℕ
  flagsAt : Option ℕ

/-- A call in flight. -/
inductive Task where
  | block (reason blockedBy : String) (hold : Hold) (phase : Phase)
  | unblock (phase : Phase)
  | push (flag : PackageFlag) (denies : Bool) (hold : Hold) (phase : Phase)
  | revoke (flag : PackageFlag)
  | current (tick : ℕ) (snapshot : Option Verdict) (package : PackageMetadata)
      (policy : SecurityPolicy) (now : DateTime)
  | scanning (job : Job)
  | recording (job : Job) (snapshot : Option Verdict)
  | recorded (jobId : ℕ)

/-- The stores, the queue's open job and the calls in flight. Of the rest, which no code
reads: `time` is the latest instant a call was made at, `starts` the containments
stored, `lifted` the tick each was last lifted at, `placed` those written into the
verdict with their tick, `returned` those whose call has returned. -/
structure World where
  status : PackageStatus
  flags : List PackageFlag
  stored : Option Verdict
  openJob : Option ℕ
  nextJob : ℕ
  tasks : ℕ → Option Task
  clock : ℕ
  time : DateTime
  starts : List Hold
  lifted : Key → ℕ
  placed : List (Hold × ℕ)
  returned : List Hold

def World.initial (status : PackageStatus) (flags : List PackageFlag) (stored : Option Verdict)
    (time : DateTime) : World where
  status := status
  flags := flags
  stored := stored
  openJob := none
  nextJob := 0
  tasks _ := none
  clock := 1
  time := time
  starts := []
  lifted _ := 0
  placed := []
  returned := []

namespace World

def setTask (w : World) (id : ℕ) (task : Option Task) : World :=
  { w with tasks := Function.update w.tasks id task }

/-- A job for the version, unless one is open. -/
def enqueue (w : World) : World :=
  match w.openJob with
  | some _ => w
  | none => { w with openJob := some w.nextJob, nextJob := w.nextJob + 1 }

/-- A rescan of what has a verdict. -/
def rescan (w : World) : World := if w.stored.isSome then w.enqueue else w

def at_ (w : World) (now : DateTime) : World := { w with time := max w.time now }

/-- The end of a containment's write: the verdict that was read is rewritten, if there
was one. -/
def place (w : World) (hold : Hold) (rewritten : Option Verdict) : World :=
  match rewritten with
  | none => w
  | some v => { w with stored := some v, placed := (hold, w.clock) :: w.placed }

end World

inductive Event where
  | blockStart (id : ℕ) (reason blockedBy : String)
  | blockRead (id : ℕ)
  | blockWrite (id : ℕ) (now : DateTime)
  | blockReturn (id : ℕ)
  | unblockStart (id : ℕ)
  | unblockRead (id : ℕ)
  | unblockWrite (id : ℕ) (now : DateTime)
  | unblockReturn (id : ℕ)
  | pushStart (id : ℕ) (flag : PackageFlag) (now : DateTime)
  | pushRead (id : ℕ)
  | pushWrite (id : ℕ) (now : DateTime)
  | pushReturn (id : ℕ)
  | revokeStart (id : ℕ) (source externalId : String) (now : DateTime)
  | revokeReturn (id : ℕ)
  | currentRead (id : ℕ) (package : PackageMetadata) (policy : SecurityPolicy) (now : DateTime)
  | currentWrite (id : ℕ)
  | lease (id : ℕ) (package : PackageMetadata) (policy : SecurityPolicy)
  | spent (id : ℕ) (package : PackageMetadata) (policy : SecurityPolicy)
      (maxAttempts timeoutSecs : ℕ)
  | scanStatus (id : ℕ)
  | scanFlags (id : ℕ) (now : DateTime)
  | scanOther (id : ℕ) (artifactUnavailable : Bool) (scanner : ScannerRun)
  | enrich (id : ℕ) (name : String) (answered : Bool) (touch : Finding → Finding)
  | recordRead (id : ℕ)
  | recordWrite (id : ℕ) (now : DateTime)
  | complete (id : ℕ)

/-- An enricher attaches to the vulnerabilities and leaves the rest. -/
def enriched (touch : Finding → Finding) (f : Finding) : Finding :=
  if f.kind = .vulnerability then touch f else f

section Acting
variable (version : String)

/-- A live hard block of the version. -/
def contains (flag : PackageFlag) (now : DateTime) : Bool :=
  decide (flag.effect = .hardBlock) && flag.isLive now && flag.covers version

def holdOf (w : World) (flag : PackageFlag) : Hold :=
  ⟨.flag flag.source flag.externalId, w.clock, flag.expiresAt⟩

/-- The flag replaces one that ends at another instant. -/
def movesEnd (w : World) (flag : PackageFlag) : Bool :=
  (getFlag w.flags flag.source flag.externalId).any fun old =>
    decide (old.expiresAt ≠ flag.expiresAt)

/-- The push of an accepted flag, up to its row in the flag store. One that does not
contain the version, or moves the end of the flag it replaces, ends what that one
contained. -/
def startPush (w : World) (id : ℕ) (flag : PackageFlag) (now : DateTime) : World :=
  let denies := contains version flag now
  { (w.at_ now).setTask id (some (.push flag denies (holdOf w flag) .started)) with
    flags := upsertFlag flag w.flags
    starts := if denies then holdOf w flag :: w.starts else w.starts
    lifted := if !denies || movesEnd w flag then
        Function.update w.lifted (.flag flag.source flag.externalId) w.clock
      else w.lifted }

/-- The revocation of a flag, up to its tombstone. -/
def startRevoke (w : World) (id : ℕ) (source externalId : String) (now : DateTime) : World :=
  match getFlag w.flags source externalId with
  | none => w
  | some flag =>
    if flag.revokedAt.isNone then
      { (w.at_ now).setTask id (some (.revoke flag)) with
        flags := revokeFlag source externalId now w.flags
        lifted := Function.update w.lifted (.flag source externalId) w.clock }
    else w

def act (w : World) : Event → World
  | .blockStart id reason blockedBy =>
    let hold : Hold := ⟨.block, w.clock, none⟩
    { w.setTask id (some (.block reason blockedBy hold .started)) with
      status := .blocked reason blockedBy
      starts := hold :: w.starts }
  | .blockRead id =>
    match w.tasks id with
    | some (.block reason blockedBy hold .started) =>
      w.setTask id (some (.block reason blockedBy hold (.read w.clock w.stored)))
    | _ => w
  | .blockWrite id now =>
    match w.tasks id with
    | some (.block reason blockedBy hold (.read _ snapshot)) =>
      (w.place hold (snapshot.map fun v => rewriteBlockFinding v (some (reason, blockedBy)) now)
        ).setTask id (some (.block reason blockedBy hold .written))
    | _ => w
  | .blockReturn id =>
    match w.tasks id with
    | some (.block _ _ hold .written) =>
      { w.enqueue.setTask id none with returned := hold :: w.returned }
    | _ => w
  | .unblockStart id =>
    { w.setTask id (some (.unblock .started)) with
      status := .available
      lifted := Function.update w.lifted .block w.clock }
  | .unblockRead id =>
    match w.tasks id with
    | some (.unblock .started) => w.setTask id (some (.unblock (.read w.clock w.stored)))
    | _ => w
  | .unblockWrite id now =>
    match w.tasks id with
    | some (.unblock (.read _ snapshot)) =>
      { w.setTask id (some (.unblock .written)) with
        stored := (snapshot.map fun v => rewriteBlockFinding v none now).or w.stored }
    | _ => w
  | .unblockReturn id =>
    match w.tasks id with
    | some (.unblock .written) => w.enqueue.setTask id none
    | _ => w
  | .pushStart id flag now => startPush version w id { flag with revokedAt := none } now
  | .pushRead id =>
    match w.tasks id with
    | some (.push flag true hold .started) =>
      w.setTask id (some (.push flag true hold (.read w.clock w.stored)))
    | _ => w
  | .pushWrite id now =>
    match w.tasks id with
    | some (.push flag true hold (.read _ snapshot)) =>
      (w.place hold (snapshot.map fun v => denyOne flag v now)
        ).setTask id (some (.push flag true hold .written))
    | _ => w
  | .pushReturn id =>
    match w.tasks id with
    | some (.push _ true hold .written) =>
      { w.rescan.setTask id none with returned := hold :: w.returned }
    | some (.push flag false _ .started) =>
      (if flag.covers version then w.rescan else w).setTask id none
    | _ => w
  | .revokeStart id source externalId now => startRevoke w id source externalId now
  | .revokeReturn id =>
    match w.tasks id with
    | some (.revoke flag) => (if flag.covers version then w.rescan else w).setTask id none
    | _ => w
  | .currentRead id package policy now =>
    (w.at_ now).setTask id (some (.current w.clock w.stored package policy now))
  | .currentWrite id =>
    match w.tasks id with
    | some (.current _ snapshot package policy now) =>
      { (if snapshot.isNone then w.enqueue else w).setTask id none with
        stored := (writtenBack snapshot (fresh snapshot package policy now)).or w.stored }
    | _ => w
  | .lease id package policy =>
    match w.openJob with
    | some jobId => w.setTask id (some (.scanning ⟨jobId, package, policy, ([], []), none, none⟩))
    | none => w
  | .spent id package policy maxAttempts timeoutSecs =>
    match w.openJob with
    | some jobId =>
      let progress := (policy.requiredScanners.map (exhaustedFinding maxAttempts timeoutSecs),
        policy.requiredScanners)
      w.setTask id (some (.recording ⟨jobId, package, policy, progress, none, none⟩ w.stored))
    | none => w
  | .scanStatus id =>
    match w.tasks id with
    | some (.scanning job) =>
      let progress := (job.progress.1 ++ Containment.scanStatus w.status,
        job.progress.2 ++ [blockListScanner])
      w.setTask id (some (.scanning { job with progress := progress, statusAt := some w.clock }))
    | _ => w
  | .scanFlags id now =>
    match w.tasks id with
    | some (.scanning job) =>
      let progress := (job.progress.1 ++ Containment.scanFlags w.flags version now,
        job.progress.2 ++ [flagsScanner])
      (w.at_ now).setTask id
        (some (.scanning { job with progress := progress, flagsAt := some w.clock }))
    | _ => w
  | .scanOther id artifactUnavailable scanner =>
    match w.tasks id with
    | some (.scanning job) =>
      w.setTask id (some (.scanning
        { job with progress := runScanner artifactUnavailable job.progress scanner }))
    | _ => w
  | .enrich id name answered touch =>
    match w.tasks id with
    | some (.scanning job) =>
      let progress := enrichOne job.progress ⟨name, List.map (enriched touch), answered⟩
      w.setTask id (some (.scanning { job with progress := progress }))
    | _ => w
  | .recordRead id =>
    match w.tasks id with
    | some (.scanning job) => w.setTask id (some (.recording job w.stored))
    | _ => w
  | .recordWrite id now =>
    match w.tasks id with
    | some (.recording job snapshot) =>
      { w.setTask id (some (.recorded job.id)) with
        stored := some (recordScan snapshot job.package job.policy job.progress.1 job.progress.2
          now) }
    | _ => w
  | .complete id =>
    match w.tasks id with
    | some (.recorded jobId) =>
      { w.setTask id none with
        openJob := if w.openJob = some jobId then none else w.openJob }
    | _ => w

def step (w : World) (e : Event) : World :=
  let w' := act version w e
  { w' with clock := w.clock + 1 }

end Acting

/-- Not lifted since, and not past its end. -/
def InForce (w : World) (h : Hold) : Prop :=
  w.lifted h.key ≤ h.since ∧ ∀ t, h.expiresAt = some t → w.time < t

/-- What was read at `tick` was read after every containment in force was placed. -/
def FreshFor (w : World) (tick : ℕ) : Prop :=
  ∀ p ∈ w.placed, InForce w p.1 → p.2 < tick

/-- The job's scanner read the store the containment is kept in after it was put there. -/
def Saw (job : Job) (h : Hold) : Prop :=
  match h.key with
  | .block => ∃ tick, job.statusAt = some tick ∧ h.since < tick
  | .flag _ _ => ∃ tick, job.flagsAt = some tick ∧ h.since < tick

/-- A verdict written while a containment is in force comes from reads that are newer
than it; a block or a push finds a verdict to write to; no unblock that began before
a block takes it out. -/
def Orderly (w : World) : Event → Prop
  | .blockWrite id _ => ∀ reason blockedBy hold tick snapshot,
      w.tasks id = some (.block reason blockedBy hold (.read tick snapshot)) →
      snapshot ≠ none ∧ FreshFor w tick
  | .unblockWrite id _ => ∀ tick snapshot,
      w.tasks id = some (.unblock (.read tick snapshot)) → snapshot ≠ none →
      FreshFor w tick ∧ ∀ p ∈ w.placed, InForce w p.1 → p.1.key ≠ .block
  | .pushWrite id _ => ∀ flag hold tick snapshot,
      w.tasks id = some (.push flag true hold (.read tick snapshot)) →
      snapshot ≠ none ∧ FreshFor w tick
  | .currentWrite id => ∀ tick snapshot package policy now,
      w.tasks id = some (.current tick snapshot package policy now) →
      writtenBack snapshot (fresh snapshot package policy now) ≠ none → FreshFor w tick
  | .recordWrite id _ => ∀ job snapshot, w.tasks id = some (.recording job snapshot) →
      ∀ p ∈ w.placed, InForce w p.1 → Saw job p.1
  | _ => True

end BatleHub.BlockTraffic
