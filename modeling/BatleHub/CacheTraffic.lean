import BatleHub.CachedFetch
import BatleHub.Lib.AssocMap
import BatleHub.Lib.Runs
import Mathlib.Logic.Function.Basic

/-!
The artifact cache under traffic: fetches, readers, evictions and coherence sweeps side by
side. Each task runs between two operations on a store without a break, and the bytes
(`storage`) and the rows about them (`artifact_meta`) are separate stores. An operation
takes effect at its key at once or, where it fails, not at all. A deletion that a fetch
cleans up by may fail too; that is only logged.
-/
namespace BatleHub.ProxyCache

open Lib AssocMap Integrity

section Stores

structure MetaRow where
  registry : String
  packageName : String
  version : String
  size : Option ℕ
  checksum : Option String
  deriving DecidableEq, Repr

structure World where
  objects : Assoc String Bytes
  rows : Assoc String MetaRow
  /-- `coherence_pending` of the eviction service of each registry. -/
  pending : String → List String
  /-- The sweep that holds the lock on it. -/
  sweeping : String → Option ℕ

def World.write (w : World) (key : String) (data : Bytes) : World :=
  { w with objects := w.objects.insert key data }

def World.delete (w : World) (key : String) : World := { w with objects := w.objects.erase key }

def World.forget (w : World) (key : String) : World := { w with rows := w.rows.erase key }

/-- An upsert: where the row exists, only its size and checksum are replaced. -/
def upserted (row : MetaRow) : Option MetaRow → MetaRow
  | some old => { old with size := row.size, checksum := row.checksum }
  | none => row

def World.recordArtifact (w : World) (key : String) (row : MetaRow) : World :=
  { w with rows := w.rows.insert key (upserted row (w.rows.lookup key)) }

def World.getArtifactChecksum (w : World) (key : String) : Option String :=
  (w.rows.lookup key).bind MetaRow.checksum

def World.listKeys (w : World) (lead : String) : List String :=
  w.objects.keys.filter fun key => Texts.startsWith key lead

/-- The keys of `list_artifacts`. -/
def World.listArtifacts (w : World) (registry : String) : List String :=
  (w.rows.entries.filter fun e => decide (registry = "" ∨ e.2.registry = registry)).map Sigma.fst

end Stores

section Fetching
variable (lib : Hashes) (startsLikeScript : Bytes → Bool)

/-- A staging key is made of a fresh id, here that of the task. -/
def stagingKeyFor (id : ℕ) (artifactKey : String) : String :=
  "staging:" ++ toString id ++ "/" ++ artifactKey

structure StoreOutcome where
  contentHash : String
  size : ℕ
  deriving DecidableEq, Repr

def storeOutcomeOf (data : Bytes) : StoreOutcome := ⟨sha256Hex lib data, data.length⟩

/-- Where a fetch stands. It has failed when it returned an error before it promoted. -/
inductive FetchPhase where
  | fetching
  | storing (stream : ByteStream)
  | discarding (e : CoreError)
  | evicting (reason : String)
  | promoting (outcome : StoreOutcome)
  | recording (outcome : StoreOutcome)
  | retrieving
  | failed (e : CoreError)
  | finished (result : Except CoreError Bytes)

def storeKey (id : ℕ) (f : Fetch) : String :=
  if mustStage lib f then stagingKeyFor id f.artifactKey else f.artifactKey

def Fetch.row (f : Fetch) (outcome : StoreOutcome) : MetaRow :=
  ⟨f.packageId.registry, f.packageId.name, f.packageId.version, some outcome.size,
    some outcome.contentHash⟩

/-- One operation of a fetch; `io` is the error the store gives it, if any. -/
def advanceFetch (w : World) (id : ℕ) (f : Fetch) (io : Option CoreError) :
    FetchPhase → World × FetchPhase
  | .fetching =>
    match openUpstream startsLikeScript f with
    | .error e => (w, .failed e)
    | .ok stream =>
      if f.noStore then
        match serveNoStore lib f stream with
        | .error e => (w, .failed e)
        | .ok data => (w, .finished (.ok data))
      else (w, .storing stream)
  | .storing stream =>
    match streamUpstream lib f stream, io with
    | .ok (data, slot), none =>
      (w.write (storeKey lib id f) data,
        match enforceVerifyOutcome lib f slot with
        | some reason => .evicting reason
        | none =>
          if mustStage lib f then .promoting (storeOutcomeOf lib data)
          else .recording (storeOutcomeOf lib data))
    | .ok _, some e | .error e, _ =>
      (w, if mustStage lib f then .discarding e else .failed e)
  | .discarding e =>
    match io with
    | some _ => (w, .failed e)
    | none => (w.delete (storeKey lib id f), .failed e)
  | .evicting reason =>
    match io with
    | some _ => (w, .failed (.integrityFailure reason))
    | none => (w.delete (storeKey lib id f), .failed (.integrityFailure reason))
  | .promoting outcome =>
    match io, w.objects.lookup (stagingKeyFor id f.artifactKey) with
    | some e, _ => (w, .finished (.error e))
    | none, none =>
      (w, .finished (.error (.registry ("staged artifact '" ++ stagingKeyFor id f.artifactKey ++
        "' vanished before promotion"))))
    | none, some data =>
      ((w.write f.artifactKey data).delete (stagingKeyFor id f.artifactKey), .recording outcome)
  | .recording outcome =>
    match io with
    | some _ => (w, .retrieving)
    | none => (w.recordArtifact f.artifactKey (f.row outcome), .retrieving)
  | .retrieving =>
    match io, w.objects.lookup f.artifactKey with
    | some e, _ => (w, .finished (.error e))
    | none, none =>
      (w, .finished (.error (.registry
        ("artifact '" ++ f.artifactKey ++ "' vanished immediately after caching"))))
    | none, some data => (w, .finished (.ok data))
  | .failed e => (w, .failed e)
  | .finished result => (w, .finished result)

/-- Everything an operation of a fetch can do. -/
inductive FetchStep (w : World) (id : ℕ) (f : Fetch) (io : Option CoreError) :
    FetchPhase → World → FetchPhase → Prop where
  | refused (e : CoreError) : FetchStep w id f io .fetching w (.failed e)
  | served (data : Bytes) : FetchStep w id f io .fetching w (.finished (.ok data))
  | opened (stream : ByteStream) (h : openUpstream startsLikeScript f = .ok stream) :
      FetchStep w id f io .fetching w (.storing stream)
  | condemned (stream : ByteStream) (data : Bytes) (reason : String)
      (hstage : mustStage lib f = true) :
      FetchStep w id f io (.storing stream) (w.write (stagingKeyFor id f.artifactKey) data)
        (.evicting reason)
  | staged (stream : ByteStream) (data : Bytes) (hcontent : content stream = some data)
      (hstage : mustStage lib f = true) (hreason : blockReason lib f data = none) :
      FetchStep w id f io (.storing stream) (w.write (stagingKeyFor id f.artifactKey) data)
        (.promoting (storeOutcomeOf lib data))
  | stored (stream : ByteStream) (data : Bytes) (hcontent : content stream = some data)
      (hstage : mustStage lib f = false) :
      FetchStep w id f io (.storing stream) (w.write f.artifactKey data)
        (.recording (storeOutcomeOf lib data))
  | broken (stream : ByteStream) (e : CoreError) (hstage : mustStage lib f = true) :
      FetchStep w id f io (.storing stream) w (.discarding e)
  | lost (stream : ByteStream) (e : CoreError) (hstage : mustStage lib f = false) :
      FetchStep w id f io (.storing stream) w (.failed e)
  | discarded (e : CoreError) :
      FetchStep w id f io (.discarding e) (w.delete (storeKey lib id f)) (.failed e)
  | evicted (reason : String) :
      FetchStep w id f io (.evicting reason) (w.delete (storeKey lib id f))
        (.failed (.integrityFailure reason))
  | undiscarded (e : CoreError) (h : io ≠ none) :
      FetchStep w id f io (.discarding e) w (.failed e)
  | unevicted (reason : String) (h : io ≠ none) :
      FetchStep w id f io (.evicting reason) w (.failed (.integrityFailure reason))
  | promoted (outcome : StoreOutcome) (data : Bytes)
      (hstaged : w.objects.lookup (stagingKeyFor id f.artifactKey) = some data) :
      FetchStep w id f io (.promoting outcome)
        ((w.write f.artifactKey data).delete (stagingKeyFor id f.artifactKey)) (.recording outcome)
  | unpromoted (outcome : StoreOutcome) (e : CoreError)
      (h : io = none → w.objects.lookup (stagingKeyFor id f.artifactKey) = none) :
      FetchStep w id f io (.promoting outcome) w (.finished (.error e))
  | recorded (outcome : StoreOutcome) :
      FetchStep w id f io (.recording outcome) (w.recordArtifact f.artifactKey (f.row outcome))
        .retrieving
  | unrecorded (outcome : StoreOutcome) (h : io ≠ none) :
      FetchStep w id f io (.recording outcome) w .retrieving
  | retrieved (result : Except CoreError Bytes) :
      FetchStep w id f io .retrieving w (.finished result)
  | returned (e : CoreError) : FetchStep w id f io (.failed e) w (.failed e)
  | over (result : Except CoreError Bytes) :
      FetchStep w id f io (.finished result) w (.finished result)

theorem advanceFetch_spec (w : World) (id : ℕ) (f : Fetch) (io : Option CoreError)
    (phase : FetchPhase) :
    FetchStep lib startsLikeScript w id f io phase
      (advanceFetch lib startsLikeScript w id f io phase).1
      (advanceFetch lib startsLikeScript w id f io phase).2 := by
  cases phase with
  | fetching =>
    simp only [advanceFetch]
    split
    · exact .refused _
    · rename_i stream hopen
      split
      · split
        · exact .refused _
        · exact .served _
      · exact .opened stream hopen
  | storing stream =>
    simp only [advanceFetch]
    split
    · rename_i data slot hstream
      obtain ⟨hcontent, -, hreason⟩ := streamUpstream_eq_ok hstream
      cases henforced : enforceVerifyOutcome lib f slot with
      | some reason =>
        have hstage := mustStage_of_blockReason (hreason.symm.trans henforced)
        have hkey : storeKey lib id f = stagingKeyFor id f.artifactKey := if_pos hstage
        rw [hkey]
        exact .condemned stream data reason hstage
      | none =>
        cases hstage : mustStage lib f with
        | true =>
          have hkey : storeKey lib id f = stagingKeyFor id f.artifactKey := if_pos hstage
          rw [hkey]
          exact .staged stream data hcontent hstage (hreason ▸ henforced)
        | false =>
          have hkey : storeKey lib id f = f.artifactKey := if_neg (by simp [hstage])
          rw [hkey]
          exact .stored stream data hcontent hstage
    · cases hstage : mustStage lib f with
      | true => exact .broken stream _ hstage
      | false => exact .lost stream _ hstage
    · cases hstage : mustStage lib f with
      | true => exact .broken stream _ hstage
      | false => exact .lost stream _ hstage
  | discarding e =>
    cases io with
    | some _ => exact .undiscarded e (by simp)
    | none => exact .discarded e
  | evicting reason =>
    cases io with
    | some _ => exact .unevicted reason (by simp)
    | none => exact .evicted reason
  | promoting outcome =>
    simp only [advanceFetch]
    split
    · exact .unpromoted outcome _ (fun h => by cases h)
    · rename_i hlookup
      exact .unpromoted outcome _ (fun _ => hlookup)
    · rename_i data hlookup
      exact .promoted outcome data hlookup
  | recording outcome =>
    cases io with
    | some e => exact .unrecorded outcome (by simp)
    | none => exact .recorded outcome
  | retrieving =>
    simp only [advanceFetch]
    split
    · exact .retrieved _
    · exact .retrieved _
    · exact .retrieved _
  | failed e => exact .returned e
  | finished result => exact .over result

end Fetching

section Serving
variable (lib : Hashes)

def REVERIFY_BUFFER_LIMIT : ℕ := 32 * 1024 * 1024

structure Serve where
  packageId : PackageId
  integrity : IntegrityPolicy

def Serve.artifactKey (r : Serve) : String := artifactKeyFor r.packageId

inductive ServePhase where
  | opening
  | checking (data : Bytes)
  | reopening
  | evicting (reason : String)
  | forgetting (reason : String)
  | missed
  | finished (result : Except CoreError Bytes)

/-- What a reader does with the bytes it has opened, given the checksum recorded of them. -/
def reverifyOnServe (r : Serve) (data : Bytes) : Option String → ServePhase
  | none => .finished (.ok data)
  | some expected =>
    match verify lib expected data with
    | .verified _ =>
      if data.length > REVERIFY_BUFFER_LIMIT then .reopening else .finished (.ok data)
    | .mismatch algo expected actual =>
      .evicting ("cached artifact failed re-serve integrity check for " ++ r.packageId.cacheKey ++
        ": " ++ algo.asStr ++ " digest mismatch (expected " ++ expected ++ ", got " ++ actual ++ ")")
    | .unparseable => .finished (.ok data)

def advanceServe (w : World) (r : Serve) (io : Option CoreError) : ServePhase → World × ServePhase
  | .opening =>
    match io, w.objects.lookup r.artifactKey with
    | some e, _ => (w, .finished (.error e))
    | none, none => (w, .missed)
    | none, some data =>
      if r.integrity.enabled && r.integrity.verifyOnServe then (w, .checking data)
      else (w, .finished (.ok data))
  | .checking data =>
    match io with
    | some _ => (w, .finished (.error (.integrityFailure
        ("cannot re-verify cached artifact for " ++ r.packageId.cacheKey ++
          ": checksum lookup failed"))))
    | none => (w, reverifyOnServe lib r data (w.getArtifactChecksum r.artifactKey))
  | .reopening =>
    match io, w.objects.lookup r.artifactKey with
    | some e, _ => (w, .finished (.error e))
    | none, none => (w, .finished (.error (.registry
        ("artifact '" ++ r.artifactKey ++ "' vanished after re-serve verification"))))
    | none, some data => (w, .finished (.ok data))
  | .evicting reason =>
    match io with
    | some _ => (w, .forgetting reason)
    | none => (w.delete r.artifactKey, .forgetting reason)
  | .forgetting reason =>
    match io with
    | some _ => (w, .finished (.error (.integrityFailure reason)))
    | none => (w.forget r.artifactKey, .finished (.error (.integrityFailure reason)))
  | .missed => (w, .missed)
  | .finished result => (w, .finished result)

theorem advanceServe_world (w : World) (r : Serve) (io : Option CoreError) (phase : ServePhase) :
    (advanceServe lib w r io phase).1 = w ∨
      (advanceServe lib w r io phase).1 = w.delete r.artifactKey ∨
      (advanceServe lib w r io phase).1 = w.forget r.artifactKey := by
  cases phase with
  | evicting reason =>
    cases io with
    | some e => exact .inl rfl
    | none => exact .inr (.inl rfl)
  | forgetting reason =>
    cases io with
    | some e => exact .inl rfl
    | none => exact .inr (.inr rfl)
  | _ =>
    left
    simp only [advanceServe]
    repeat' split
    all_goals rfl

end Serving

section Eviction

inductive EvictPhase where
  | deleting
  | forgetting
  | done

/-- `drop_artifact` of a live run. -/
def advanceEvict (w : World) (key : String) (io : Option CoreError) : EvictPhase → World × EvictPhase
  | .deleting =>
    match io with
    | some _ => (w, .done)
    | none => (w.delete key, .forgetting)
  | .forgetting =>
    match io with
    | some _ => (w, .done)
    | none => (w.forget key, .done)
  | .done => (w, .done)

theorem advanceEvict_world (w : World) (key : String) (io : Option CoreError)
    (phase : EvictPhase) :
    (advanceEvict w key io phase).1 = w ∨ (advanceEvict w key io phase).1 = w.delete key ∨
      (advanceEvict w key io phase).1 = w.forget key := by
  cases io with
  | some e => cases phase <;> exact .inl rfl
  | none =>
    cases phase with
    | deleting => exact .inr (.inl rfl)
    | forgetting => exact .inr (.inr rfl)
    | done => exact .inl rfl

/-- A sweep on its way through the keys it has listed. -/
structure Scan where
  todo : List String
  metaKeys : List String
  stillOrphaned : List String
  deleted : List String

inductive SweepPhase where
  | listing
  | listingRows (keys : List String)
  | locking (keys metaKeys : List String)
  | looking (scan : Scan)
  | deleting (key : String) (scan : Scan)
  | done (deleted : List String)

structure Sweep where
  registry : String
  dryRun : Bool

def Sweep.keyPrefix (c : Sweep) : String :=
  if c.registry = "" then "artifact:" else "artifact:" ++ c.registry ++ "/"

/-- `run_coherence_check`, which waits for the lock, looks a key up afresh and deletes it
only where it was pending already. -/
def advanceSweep (w : World) (id : ℕ) (c : Sweep) (io : Option CoreError) :
    SweepPhase → World × SweepPhase
  | .listing =>
    match io with
    | some _ => (w, .done [])
    | none => (w, .listingRows (w.listKeys c.keyPrefix))
  | .listingRows keys =>
    match io with
    | some _ => (w, .done [])
    | none => (w, .locking keys (w.listArtifacts c.registry))
  | .locking keys metaKeys =>
    match w.sweeping c.registry with
    | some _ => (w, .locking keys metaKeys)
    | none =>
      ({ w with sweeping := Function.update w.sweeping c.registry (some id) },
        .looking ⟨keys, metaKeys, [], []⟩)
  | .looking ⟨[], _, stillOrphaned, deleted⟩ =>
    ({ w with
        pending := if c.dryRun then w.pending
          else Function.update w.pending c.registry stillOrphaned
        sweeping := Function.update w.sweeping c.registry none }, .done deleted)
  | .looking ⟨key :: todo, metaKeys, stillOrphaned, deleted⟩ =>
    if key ∈ metaKeys then (w, .looking ⟨todo, metaKeys, stillOrphaned, deleted⟩)
    else
      match io, w.getArtifactChecksum key with
      | some _, _ | none, some _ => (w, .looking ⟨todo, metaKeys, stillOrphaned, deleted⟩)
      | none, none =>
        if key ∈ w.pending c.registry then
          (w, .deleting key ⟨todo, metaKeys, stillOrphaned, deleted⟩)
        else (w, .looking ⟨todo, metaKeys, stillOrphaned ++ [key], deleted⟩)
  | .deleting key ⟨todo, metaKeys, stillOrphaned, deleted⟩ =>
    if c.dryRun then (w, .looking ⟨todo, metaKeys, stillOrphaned, deleted ++ [key]⟩)
    else
      match io with
      | some _ => (w, .looking ⟨todo, metaKeys, stillOrphaned ++ [key], deleted⟩)
      | none => (w.delete key, .looking ⟨todo, metaKeys, stillOrphaned, deleted ++ [key]⟩)
  | .done deleted => (w, .done deleted)

/-- Everything an operation of a sweep can do. -/
inductive SweepStep (w : World) (id : ℕ) (c : Sweep) (io : Option CoreError) :
    SweepPhase → World → SweepPhase → Prop where
  | aborted (phase : SweepPhase) (hearly : phase = .listing ∨ ∃ keys, phase = .listingRows keys) :
      SweepStep w id c io phase w (.done [])
  | listed : SweepStep w id c io .listing w (.listingRows (w.listKeys c.keyPrefix))
  | listedRows (keys : List String) :
      SweepStep w id c io (.listingRows keys) w (.locking keys (w.listArtifacts c.registry))
  | waited (keys metaKeys : List String) :
      SweepStep w id c io (.locking keys metaKeys) w (.locking keys metaKeys)
  | locked (keys metaKeys : List String) (hfree : w.sweeping c.registry = none) :
      SweepStep w id c io (.locking keys metaKeys)
        { w with sweeping := Function.update w.sweeping c.registry (some id) }
        (.looking ⟨keys, metaKeys, [], []⟩)
  | closed (metaKeys stillOrphaned deleted : List String) :
      SweepStep w id c io (.looking ⟨[], metaKeys, stillOrphaned, deleted⟩)
        { w with
          pending := if c.dryRun then w.pending
            else Function.update w.pending c.registry stillOrphaned
          sweeping := Function.update w.sweeping c.registry none } (.done deleted)
  | passed (key : String) (todo metaKeys stillOrphaned still' deleted : List String) :
      SweepStep w id c io (.looking ⟨key :: todo, metaKeys, stillOrphaned, deleted⟩) w
        (.looking ⟨todo, metaKeys, still', deleted⟩)
  | decided (key : String) (todo metaKeys stillOrphaned deleted : List String)
      (hmeta : key ∉ metaKeys) (hchecksum : w.getArtifactChecksum key = none)
      (hpending : key ∈ w.pending c.registry) :
      SweepStep w id c io (.looking ⟨key :: todo, metaKeys, stillOrphaned, deleted⟩) w
        (.deleting key ⟨todo, metaKeys, stillOrphaned, deleted⟩)
  | spared (key : String) (todo metaKeys stillOrphaned still' deleted deleted' : List String) :
      SweepStep w id c io (.deleting key ⟨todo, metaKeys, stillOrphaned, deleted⟩) w
        (.looking ⟨todo, metaKeys, still', deleted'⟩)
  | deleted (key : String) (todo metaKeys stillOrphaned deleted : List String)
      (hlive : c.dryRun = false) :
      SweepStep w id c io (.deleting key ⟨todo, metaKeys, stillOrphaned, deleted⟩) (w.delete key)
        (.looking ⟨todo, metaKeys, stillOrphaned, deleted ++ [key]⟩)
  | over (deleted : List String) : SweepStep w id c io (.done deleted) w (.done deleted)

theorem advanceSweep_spec (w : World) (id : ℕ) (c : Sweep) (io : Option CoreError)
    (phase : SweepPhase) :
    SweepStep w id c io phase (advanceSweep w id c io phase).1 (advanceSweep w id c io phase).2 := by
  cases phase with
  | listing =>
    cases io with
    | some e => exact .aborted _ (.inl rfl)
    | none => exact .listed
  | listingRows keys =>
    cases io with
    | some e => exact .aborted _ (.inr ⟨keys, rfl⟩)
    | none => exact .listedRows keys
  | locking keys metaKeys =>
    simp only [advanceSweep]
    split
    · exact .waited keys metaKeys
    · rename_i hfree
      exact .locked keys metaKeys hfree
  | looking scan =>
    obtain ⟨todo, metaKeys, stillOrphaned, deleted⟩ := scan
    cases todo with
    | nil => exact .closed metaKeys stillOrphaned deleted
    | cons key todo =>
      simp only [advanceSweep]
      split
      · exact .passed _ _ _ _ _ _
      · rename_i hmeta
        split
        · exact .passed _ _ _ _ _ _
        · exact .passed _ _ _ _ _ _
        · rename_i hchecksum
          split
          · rename_i hpending
            exact .decided key todo metaKeys stillOrphaned deleted hmeta hchecksum hpending
          · exact .passed _ _ _ _ _ _
  | deleting key scan =>
    simp only [advanceSweep]
    split
    · exact .spared _ _ _ _ _ _ _
    · rename_i hlive
      cases io with
      | some e => exact .spared _ _ _ _ _ _ _
      | none => exact .deleted _ _ _ _ _ (by simpa using hlive)
  | done deleted => exact .over deleted

end Eviction

section Traffic
variable (lib : Hashes) (startsLikeScript : Bytes → Bool)

inductive Task where
  | fetch (f : Fetch) (phase : FetchPhase)
  | serve (r : Serve) (phase : ServePhase)
  | evict (key : String) (phase : EvictPhase)
  | sweep (c : Sweep) (phase : SweepPhase)

inductive Request where
  | fetch (f : Fetch)
  | serve (r : Serve)
  | evict (key : String)
  | sweep (c : Sweep)

def Request.task : Request → Task
  | .fetch f => .fetch f .fetching
  | .serve r => .serve r .opening
  | .evict key => .evict key .deleting
  | .sweep c => .sweep c .listing

/-- The stores and every task that was ever started. -/
structure State where
  world : World
  tasks : ℕ → Option Task

inductive Event where
  | start (id : ℕ) (request : Request)
  | advance (id : ℕ) (io : Option CoreError)

def advance (w : World) (id : ℕ) (io : Option CoreError) : Task → World × Task
  | .fetch f phase =>
    let (w', phase') := advanceFetch lib startsLikeScript w id f io phase
    (w', .fetch f phase')
  | .serve r phase =>
    let (w', phase') := advanceServe lib w r io phase
    (w', .serve r phase')
  | .evict key phase =>
    let (w', phase') := advanceEvict w key io phase
    (w', .evict key phase')
  | .sweep c phase =>
    let (w', phase') := advanceSweep w id c io phase
    (w', .sweep c phase')

theorem advance_fetch (w : World) (id : ℕ) (io : Option CoreError) (f : Fetch)
    (phase : FetchPhase) :
    ∃ w' phase', advance lib startsLikeScript w id io (.fetch f phase) = (w', .fetch f phase') ∧
      FetchStep lib startsLikeScript w id f io phase w' phase' :=
  ⟨_, _, rfl, advanceFetch_spec lib startsLikeScript w id f io phase⟩

theorem advance_sweep (w : World) (id : ℕ) (io : Option CoreError) (c : Sweep)
    (phase : SweepPhase) :
    ∃ w' phase', advance lib startsLikeScript w id io (.sweep c phase) = (w', .sweep c phase') ∧
      SweepStep w id c io phase w' phase' :=
  ⟨_, _, rfl, advanceSweep_spec w id c io phase⟩

def step (s : State) : Event → State
  | .start id request =>
    match s.tasks id with
    | some _ => s
    | none => ⟨s.world, Function.update s.tasks id (some request.task)⟩
  | .advance id io =>
    match s.tasks id with
    | none => s
    | some task =>
      let (w, task') := advance lib startsLikeScript s.world id io task
      ⟨w, Function.update s.tasks id (some task')⟩

/-- A step does nothing, starts a task, or takes one operation of a task. -/
theorem step_cases (s : State) (e : Event) :
    step lib startsLikeScript s e = s ∨
      (∃ id request, e = .start id request ∧ s.tasks id = none ∧
        step lib startsLikeScript s e =
          ⟨s.world, Function.update s.tasks id (some request.task)⟩) ∨
      ∃ id io task, e = .advance id io ∧ s.tasks id = some task ∧
        step lib startsLikeScript s e =
          ⟨(advance lib startsLikeScript s.world id io task).1,
            Function.update s.tasks id (some (advance lib startsLikeScript s.world id io task).2)⟩ := by
  cases e with
  | start id request =>
    cases htask : s.tasks id with
    | none => exact .inr (.inl ⟨id, request, rfl, htask, by rw [step, htask]⟩)
    | some task => exact .inl (by rw [step, htask])
  | advance id io =>
    cases htask : s.tasks id with
    | none => exact .inl (by rw [step, htask])
    | some task => exact .inr (.inr ⟨id, io, task, rfl, htask, by rw [step, htask]⟩)

def State.initial (w : World) : State := ⟨w, fun _ => none⟩

def run (s : State) (events : List Event) : State := Runs.run (step lib startsLikeScript) s events

theorem run_append (s : State) (before after : List Event) :
    run lib startsLikeScript s (before ++ after) =
      run lib startsLikeScript (run lib startsLikeScript s before) after :=
  Runs.run_append s before after

/-- A task that is not started is not there. -/
theorem tasks_run_eq_none {id : ℕ} {s : State} {events : List Event} (h : s.tasks id = none)
    (hstart : ∀ request, Event.start id request ∉ events) :
    (run lib startsLikeScript s events).tasks id = none := by
  induction events generalizing s with
  | nil => exact h
  | cons e rest ih =>
    apply ih _ fun request hmem => hstart request (List.mem_cons_of_mem e hmem)
    rcases step_cases lib startsLikeScript s e with hsame | ⟨id', request, rfl, -, hstep⟩ |
        ⟨id', io, task, rfl, htask, hstep⟩
    · rw [hsame]
      exact h
    · have hne : id ≠ id' := by
        rintro rfl
        exact hstart request List.mem_cons_self
      rw [hstep]
      simpa [hne] using h
    · have hne : id ≠ id' := by
        rintro rfl
        rw [h] at htask
        cases htask
      rw [hstep]
      simpa [hne] using h

end Traffic

end BatleHub.ProxyCache
