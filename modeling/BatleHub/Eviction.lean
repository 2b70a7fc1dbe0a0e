import BatleHub.KeepConditions
import BatleHub.Lib.StableSort
import Mathlib.Algebra.Order.Ring.Nat

/-!
The eviction service (`services/eviction`) over the in-memory artifact table
(`in_memory/artifact_meta.rs`). Four strategies read the table one after another and drop
what they name; the size cap reads it again after each page. A dry run takes the same walk
and drops nothing. Deletes fail as a pattern says; what was dropped is logged.
-/
namespace BatleHub.Eviction

open LocalPackages (DateTime)
open Instants (Representable checkedSubSigned)

section Table

structure ArtifactMeta where
  artifactKey : String
  registry : String
  packageName : String
  version : String
  sizeBytes : Option ℕ
  cachedAt : DateTime
  lastAccessedAt : DateTime
deriving DecidableEq, Repr

/-- The bytes an artifact is counted with. -/
def ArtifactMeta.size (row : ArtifactMeta) : ℕ := row.sizeBytes.getD 0

/-- The rows of `artifact_meta`, one for each key, in the order the map lists them. -/
structure ArtifactTable where
  rows : List ArtifactMeta
  keys : (rows.map ArtifactMeta.artifactKey).Nodup
  instants : ∀ row ∈ rows, Representable row.cachedAt ∧ Representable row.lastAccessedAt

namespace ArtifactTable
variable (table : ArtifactTable)

def deleteArtifactMeta (key : String) : ArtifactTable where
  rows := table.rows.filter fun row => !decide (row.artifactKey = key)
  keys := table.keys.sublist (List.filter_sublist.map _)
  instants := fun row hrow => table.instants row (List.mem_of_mem_filter hrow)

/-- The empty name lists every registry. -/
def inScope (registry : String) (row : ArtifactMeta) : Bool :=
  decide (registry = "") || decide (row.registry = registry)

def listArtifacts (registry : String) : List ArtifactMeta := table.rows.filter (inScope registry)

/-- By registry and package, the last cached first. -/
def packageOrder (a b : ArtifactMeta) : Prop :=
  a.registry < b.registry ∨ a.registry = b.registry ∧
    (a.packageName < b.packageName ∨ a.packageName = b.packageName ∧ b.cachedAt ≤ a.cachedAt)

instance decidablePackageOrder : DecidableRel packageOrder := fun a b =>
  inferInstanceAs (Decidable (a.registry < b.registry ∨ a.registry = b.registry ∧
    (a.packageName < b.packageName ∨ a.packageName = b.packageName ∧ b.cachedAt ≤ a.cachedAt)))

/-- The row that was not accessed for longest first. -/
def accessOrder (a b : ArtifactMeta) : Prop := a.lastAccessedAt ≤ b.lastAccessedAt

instance decidableAccessOrder : DecidableRel accessOrder := fun a b =>
  inferInstanceAs (Decidable (a.lastAccessedAt ≤ b.lastAccessedAt))

def listArtifactsByPackage : List ArtifactMeta := table.rows.insertionSort packageOrder

def listExpiredByTtl (registry : String) (olderThan : DateTime) : List ArtifactMeta :=
  (table.listArtifacts registry).filter fun row => decide (row.cachedAt < olderThan)

def listIdle (registry : String) (idleSince : DateTime) : List ArtifactMeta :=
  (table.listArtifacts registry).filter fun row => decide (row.lastAccessedAt < idleSince)

def totalSizeBytes (registry : String) : ℕ :=
  ((table.listArtifacts registry).filterMap ArtifactMeta.sizeBytes).sum

def listLru (registry : String) (limit : ℕ) : List ArtifactMeta :=
  ((table.listArtifacts registry).insertionSort accessOrder).take limit

end ArtifactTable

end Table

section Report

inductive Strategy where
  | ttl
  | idle
  | keepLatestN
  | lru
deriving DecidableEq, Repr

/-- `max_size_bytes` and the others are absent where the strategy is not configured. -/
structure EvictionConfig where
  artifactTtlSecs : Option ℕ
  idleDays : Option ℕ
  maxSizeBytes : Option ℕ
  keepLatestN : Option ℕ
  registry : String
deriving DecidableEq, Repr

structure EvictionReport where
  total : ℕ
  evictedTtl : ℕ
  evictedIdle : ℕ
  evictedOldVersions : ℕ
  evictedLru : ℕ
  held : ℕ
  dryRun : Bool
  evictedKeys : List String
  keysTruncated : ℕ
  incompleteBecause : Option String
deriving DecidableEq, Repr

def MAX_REPORTED_KEYS : ℕ := 2000

namespace EvictionReport

def new (dryRun : Bool) : EvictionReport := ⟨0, 0, 0, 0, 0, 0, dryRun, [], 0, none⟩

def record (report : EvictionReport) (key : String) : EvictionReport :=
  if report.evictedKeys.length < MAX_REPORTED_KEYS then
    { report with evictedKeys := report.evictedKeys ++ [key] }
  else { report with keysTruncated := report.keysTruncated + 1 }

def countHeld (report : EvictionReport) (n : ℕ) : EvictionReport :=
  { report with held := report.held + n }

def count (report : EvictionReport) (n : ℕ) : Strategy → EvictionReport
  | .ttl => { report with evictedTtl := n }
  | .idle => { report with evictedIdle := n }
  | .keepLatestN => { report with evictedOldVersions := n }
  | .lru => { report with evictedLru := n }

def sumUp (report : EvictionReport) : EvictionReport :=
  { report with
    total := report.evictedTtl + report.evictedIdle + report.evictedOldVersions +
      report.evictedLru }

end EvictionReport

end Report

section Drop

/-- Which of the two deletes of a drop fails. -/
inductive Fault where
  | none
  | storage
  | metadata
deriving DecidableEq, Repr

/-- A call of `drop_artifact`, and whether the bytes were deleted. -/
structure Entry where
  strategy : Strategy
  row : ArtifactMeta
  deleted : Bool
deriving DecidableEq, Repr

/-- The two stores, the report so far and the drops so far. -/
structure Run where
  table : ArtifactTable
  blobs : List String
  report : EvictionReport
  log : List Entry

def Run.start (table : ArtifactTable) (blobs : List String) (dryRun : Bool) : Run :=
  ⟨table, blobs, EvictionReport.new dryRun, []⟩

/-- What a service is built from and what its calls meet: the held keys, the clock, and which
deletes fail, by the number of drops before and the row. -/
structure EvictionService where
  config : EvictionConfig
  held : List String
  now : DateTime
  faults : ℕ → ArtifactMeta → Fault

def holdKey (packageName : String) : Option String → String
  | some version => packageName ++ "@" ++ version
  | none => packageName

def isHeld (held : List String) (row : ArtifactMeta) : Bool :=
  !held.isEmpty && (decide (holdKey row.packageName (some row.version) ∈ held) ||
    decide (holdKey row.packageName none ∈ held))

variable (service : EvictionService)

/-- The bytes, then the row. A failed delete of the bytes does not count and leaves the row; a
failed delete of the row counts. -/
def dropArtifact (row : ArtifactMeta) (strategy : Strategy) (s : Run) : Bool × Run :=
  let recorded := { s with report := s.report.record row.artifactKey }
  if s.report.dryRun then (true, { recorded with log := s.log ++ [⟨strategy, row, false⟩] })
  else
    match service.faults s.log.length row with
    | .storage => (false, { recorded with log := s.log ++ [⟨strategy, row, false⟩] })
    | .metadata =>
      (true, { recorded with
        blobs := s.blobs.filter fun key => !decide (key = row.artifactKey)
        log := s.log ++ [⟨strategy, row, true⟩] })
    | .none =>
      (true, { recorded with
        blobs := s.blobs.filter fun key => !decide (key = row.artifactKey)
        table := s.table.deleteArtifactMeta row.artifactKey
        log := s.log ++ [⟨strategy, row, true⟩] })

/-- The loop of the first three strategies: held rows are counted and left. -/
def dropEach (strategy : Strategy) : List ArtifactMeta → ℕ → Run → ℕ × Run
  | [], count, s => (count, s)
  | row :: rows, count, s =>
    if isHeld service.held row then
      dropEach strategy rows count { s with report := s.report.countHeld 1 }
    else
      let (dropped, s') := dropArtifact service row strategy s
      dropEach strategy rows (if dropped then count + 1 else count) s'

end Drop

section Strategies
variable (service : EvictionService)

/-- A run returns its report, panics in date arithmetic, or is still in the loop of the size
cap when the model stops looking. -/
inductive Ending where
  | finished
  | panicked
  | looping
deriving DecidableEq, Repr

/-- `u64 as i64`. -/
def asI64 (n : ℕ) : ℤ := if n < 2 ^ 63 then n else (n : ℤ) - 2 ^ 64

/-- `Duration::seconds` of so many units, which panics out of the range of milliseconds. -/
def seconds (unit : ℤ) (n : ℤ) : Option ℤ :=
  if -((2 ^ 63 - 1) / 1000) ≤ unit * n ∧ unit * n ≤ (2 ^ 63 - 1) / 1000 then
    some (unit * n * 10 ^ 9)
  else none

/-- The clock less a configured window; nothing where it panics. -/
def cutoff (unit : ℤ) (window : ℕ) (now : DateTime) : Option DateTime :=
  (seconds unit (asI64 window)).bind (checkedSubSigned now)

def secondUnit : ℤ := 1

def dayUnit : ℤ := 24 * 60 * 60

/-- A strategy that counts into its field of the report. -/
def counted (strategy : Strategy) (result : ℕ × Run) : Ending × Run :=
  (.finished, { result.2 with report := result.2.report.count result.1 strategy })

def runTtl (s : Run) : Ending × Run :=
  match service.config.artifactTtlSecs with
  | none => (.finished, s)
  | some ttlSecs =>
    match cutoff secondUnit ttlSecs service.now with
    | none => (.panicked, s)
    | some olderThan =>
      counted .ttl
        (dropEach service .ttl (s.table.listExpiredByTtl service.config.registry olderThan) 0 s)

def runIdle (s : Run) : Ending × Run :=
  match service.config.idleDays with
  | none => (.finished, s)
  | some days =>
    match cutoff dayUnit days service.now with
    | none => (.panicked, s)
    | some idleSince =>
      counted .idle
        (dropEach service .idle (s.table.listIdle service.config.registry idleSince) 0 s)

def ArtifactMeta.group (row : ArtifactMeta) : String × String := (row.registry, row.packageName)

/-- The rows behind the first `n` of each run of rows of one package. -/
def beyondWindow (n : ℕ) : Option (String × String) → ℕ → List ArtifactMeta → List ArtifactMeta
  | _, _, [] => []
  | current, pos, row :: rows =>
    let pos' := if current = some row.group then pos + 1 else 1
    if pos' ≤ n then beyondWindow n (some row.group) pos' rows
    else row :: beyondWindow n (some row.group) pos' rows

def runKeepLatestN (s : Run) : Ending × Run :=
  match service.config.keepLatestN with
  | none => (.finished, s)
  | some 0 => (.finished, { s with report := s.report.count 0 .keepLatestN })
  | some (n + 1) =>
    counted .keepLatestN
      (dropEach service .keepLatestN
        (beyondWindow (n + 1) none 0 s.table.listArtifactsByPackage) 0 s)

/-- Where the loop over the candidates of the size cap stands. -/
structure Batch where
  total : ℕ
  count : ℕ
  heldEvicted : ℕ
  run : Run

/-- One candidate after another, until the total is at the cap. -/
def evictCandidates (cap : ℕ) : List ArtifactMeta → Batch → Batch
  | [], b => b
  | row :: rows, b =>
    if b.total ≤ cap then b
    else
      let heldEvicted := if isHeld service.held row then b.heldEvicted + 1 else b.heldEvicted
      let (dropped, s') := dropArtifact service row .lru b.run
      evictCandidates cap rows
        (if dropped then ⟨b.total - row.size, b.count + 1, heldEvicted, s'⟩
        else ⟨b.total, b.count, heldEvicted, s'⟩)

/-- The present candidates, and behind them those upstream has lost. -/
def presentFirst (held : List String) (candidates : List ArtifactMeta) : List ArtifactMeta :=
  candidates.filter (fun row => !isHeld held row) ++ candidates.filter (isHeld held)

/-- The number of drops, the new total and the run after one batch. -/
def evictLruBatch (candidates : List ArtifactMeta) (total cap : ℕ) (s : Run) : ℕ × ℕ × Run :=
  let b := evictCandidates service cap (presentFirst service.held candidates) ⟨total, 0, 0, s⟩
  (b.count, b.total,
    if b.heldEvicted = 0 ∧ b.total ≤ cap then
      { b.run with
        report := b.run.report.countHeld (candidates.filter (isHeld service.held)).length }
    else b.run)

def lruPage : ℕ := 256

/-- The loop of the size cap, for at most `fuel` batches. -/
def lruLoop (cap : ℕ) : ℕ → ℕ → ℕ → Run → Ending × ℕ × Run
  | 0, _, count, s => (.looping, count, s)
  | fuel + 1, total, count, s =>
    if total - cap = 0 then (.finished, count, s)
    else
      let candidates := s.table.listLru service.config.registry lruPage
      if candidates.isEmpty then (.finished, count, s)
      else
        let (batch, total', s') := evictLruBatch service candidates total cap s
        if batch = 0 then (.finished, count + batch, s')
        else lruLoop cap fuel total' (count + batch) s'

def stoppedMessage (count excess : ℕ) : String :=
  "the size-cap preview stopped after " ++ toString count ++ " artifacts, with the registry " ++
    "still " ++ toString excess ++ " bytes over the cap. A live run would keep going; re-read " ++
    "this after one."

/-- A dry run takes one page. -/
def previewSizeCap (cap total : ℕ) (s : Run) : ℕ × Run :=
  let candidates := s.table.listLru service.config.registry MAX_REPORTED_KEYS
  let (count, remaining, s') := evictLruBatch service candidates total cap s
  (count,
    if cap < remaining ∧ MAX_REPORTED_KEYS ≤ candidates.length then
      { s' with
        report := { s'.report with
          incompleteBecause := some (stoppedMessage count (remaining - cap)) } }
    else s')

def runLruSizeCap (fuel : ℕ) (s : Run) : Ending × Run :=
  match service.config.maxSizeBytes with
  | none => (.finished, s)
  | some cap =>
    let total := s.table.totalSizeBytes service.config.registry
    if total ≤ cap then counted .lru (0, s)
    else if s.report.dryRun then counted .lru (previewSizeCap service cap total s)
    else
      match lruLoop service cap fuel total 0 s with
      | (.finished, count, s') => counted .lru (count, s')
      | (ending, _, s') => (ending, s')

/-- One strategy after another, as long as they return. -/
def andThen (first second : Run → Ending × Run) (s : Run) : Ending × Run :=
  match first s with
  | (.finished, s') => second s'
  | (ending, s') => (ending, s')

/-- The four strategies in sequence, with the loop of the last cut off after `fuel` batches. -/
def runAll (fuel : ℕ) (dryRun : Bool) (table : ArtifactTable) (blobs : List String) :
    Ending × Run :=
  andThen (runTtl service) (andThen (runIdle service) (andThen (runKeepLatestN service)
    (andThen (runLruSizeCap service fuel) fun s =>
      (.finished, { s with report := s.report.sumUp })))) (Run.start table blobs dryRun)

end Strategies

section Extension

/-- A part of a run that drops rows of one kind by one strategy, and only takes rows out of the
table. -/
structure Extends (strategy : Strategy) (rows : ArtifactMeta → Prop) (s s' : Run) : Prop where
  table : s'.table.rows.Sublist s.table.rows
  dryRun : s'.report.dryRun = s.report.dryRun
  log : ∃ entries, s'.log = s.log ++ entries ∧
    ∀ e ∈ entries, e.strategy = strategy ∧ rows e.row

variable {strategy : Strategy} {rows rows' : ArtifactMeta → Prop} {s s' s'' : Run}

theorem Extends.refl (strategy : Strategy) (rows : ArtifactMeta → Prop) (s : Run) :
    Extends strategy rows s s where
  table := List.Sublist.refl _
  dryRun := rfl
  log := ⟨[], (List.append_nil _).symm, fun _ h => absurd h List.not_mem_nil⟩

theorem Extends.trans (h : Extends strategy rows s s') (h' : Extends strategy rows s' s'') :
    Extends strategy rows s s'' where
  table := h'.table.trans h.table
  dryRun := h'.dryRun.trans h.dryRun
  log := by
    obtain ⟨first, hfirst, hall⟩ := h.log
    obtain ⟨second, hsecond, hall'⟩ := h'.log
    refine ⟨first ++ second, by rw [hsecond, hfirst, List.append_assoc], ?_⟩
    intro e he
    exact (List.mem_append.mp he).elim (hall e) (hall' e)

theorem Extends.imp (h : Extends strategy rows s s') (himp : ∀ row, rows row → rows' row) :
    Extends strategy rows' s s' where
  table := h.table
  dryRun := h.dryRun
  log := by
    obtain ⟨entries, hlog, hall⟩ := h.log
    exact ⟨entries, hlog, fun e he => ⟨(hall e he).1, himp _ (hall e he).2⟩⟩

/-- A change of the counts of the report. -/
theorem Extends.of_report {report : EvictionReport} (h : Extends strategy rows s s')
    (hreport : report.dryRun = s'.report.dryRun) :
    Extends strategy rows s { s' with report := report } where
  table := h.table
  dryRun := hreport.trans h.dryRun
  log := h.log

theorem dryRun_record (report : EvictionReport) (key : String) :
    (report.record key).dryRun = report.dryRun := by
  unfold EvictionReport.record
  split
  · rfl
  · rfl

theorem dryRun_count (report : EvictionReport) (n : ℕ) (strategy : Strategy) :
    (report.count n strategy).dryRun = report.dryRun := by
  cases strategy with
  | ttl => rfl
  | idle => rfl
  | keepLatestN => rfl
  | lru => rfl

variable (service : EvictionService)

theorem dropArtifact_extends (row : ArtifactMeta) (strategy : Strategy) (s : Run) :
    Extends strategy (· = row) s (dropArtifact service row strategy s).2 := by
  have hentry : ∀ deleted, ∃ entries, s.log ++ [⟨strategy, row, deleted⟩] = s.log ++ entries ∧
      ∀ e ∈ entries, e.strategy = strategy ∧ e.row = row := by
    intro deleted
    refine ⟨_, rfl, ?_⟩
    intro e he
    obtain rfl := List.mem_singleton.mp he
    exact ⟨rfl, rfl⟩
  unfold dropArtifact
  dsimp only
  split
  · exact ⟨List.Sublist.refl _, dryRun_record .., hentry false⟩
  · split
    · exact ⟨List.Sublist.refl _, dryRun_record .., hentry false⟩
    · exact ⟨List.Sublist.refl _, dryRun_record .., hentry true⟩
    · exact ⟨List.filter_sublist, dryRun_record .., hentry true⟩

/-- The three ways a drop of a live run can go. -/
theorem dropArtifact_live (row : ArtifactMeta) (strategy : Strategy)
    {s : Run} (hlive : s.report.dryRun = false) :
    ∃ deleted, (dropArtifact service row strategy s).2.log = s.log ++ [⟨strategy, row, deleted⟩] ∧
      (deleted = false ∧ service.faults s.log.length row = .storage ∧
          (dropArtifact service row strategy s).1 = false ∧
          (dropArtifact service row strategy s).2.table = s.table ∨
        deleted = true ∧ service.faults s.log.length row = .metadata ∧
          (dropArtifact service row strategy s).1 = true ∧
          (dropArtifact service row strategy s).2.table = s.table ∨
        deleted = true ∧ service.faults s.log.length row = .none ∧
          (dropArtifact service row strategy s).1 = true ∧
          (dropArtifact service row strategy s).2.table =
            s.table.deleteArtifactMeta row.artifactKey) := by
  unfold dropArtifact
  rw [hlive]
  dsimp only
  rw [if_neg Bool.false_ne_true]
  cases service.faults s.log.length row with
  | storage => exact ⟨false, rfl, .inl ⟨rfl, rfl, rfl, rfl⟩⟩
  | metadata => exact ⟨true, rfl, .inr (.inl ⟨rfl, rfl, rfl, rfl⟩)⟩
  | none => exact ⟨true, rfl, .inr (.inr ⟨rfl, rfl, rfl, rfl⟩)⟩

theorem counted_extends {rows : ArtifactMeta → Prop} {result : ℕ × Run}
    (h : Extends strategy rows s result.2) :
    Extends strategy rows s (counted strategy result).2 :=
  h.of_report (dryRun_count ..)

theorem evictCandidates_extends (cap : ℕ) (candidates : List ArtifactMeta) (b : Batch) :
    Extends .lru (· ∈ candidates) b.run (evictCandidates service cap candidates b).run := by
  induction candidates generalizing b with
  | nil => exact Extends.refl ..
  | cons row candidates ih =>
    unfold evictCandidates
    split
    · exact Extends.refl ..
    · dsimp only
      refine Extends.trans ((dropArtifact_extends service row .lru b.run).imp ?_) ?_
      · rintro r rfl
        exact List.mem_cons_self
      · split
        · exact (ih ⟨_, _, _, (dropArtifact service row .lru b.run).2⟩).imp
            fun r hr => List.mem_cons_of_mem row hr
        · exact (ih ⟨_, _, _, (dropArtifact service row .lru b.run).2⟩).imp
            fun r hr => List.mem_cons_of_mem row hr

theorem mem_presentFirst {held : List String} {candidates : List ArtifactMeta}
    {row : ArtifactMeta} : row ∈ presentFirst held candidates ↔ row ∈ candidates := by
  unfold presentFirst
  rw [List.mem_append, List.mem_filter, List.mem_filter]
  cases hheld : isHeld held row with
  | false => simp
  | true => simp

theorem evictLruBatch_extends (candidates : List ArtifactMeta) (total cap : ℕ) (s : Run) :
    Extends .lru (· ∈ candidates) s (evictLruBatch service candidates total cap s).2.2 := by
  have hbatch := (evictCandidates_extends service cap (presentFirst service.held candidates)
    ⟨total, 0, 0, s⟩).imp fun row hrow => mem_presentFirst.mp hrow
  unfold evictLruBatch
  dsimp only
  split
  · exact hbatch.of_report rfl
  · exact hbatch

theorem mem_listLru {table : ArtifactTable} {registry : String} {limit : ℕ} {row : ArtifactMeta}
    (h : row ∈ table.listLru registry limit) :
    row ∈ table.rows ∧ ArtifactTable.inScope registry row = true := by
  unfold ArtifactTable.listLru at h
  exact List.mem_filter.mp ((List.mem_insertionSort _).mp (List.mem_of_mem_take h))

theorem lruLoop_extends (cap fuel total count : ℕ) (s : Run) :
    Extends .lru (fun row => row ∈ s.table.rows ∧
      ArtifactTable.inScope service.config.registry row = true) s
      (lruLoop service cap fuel total count s).2.2 := by
  induction fuel generalizing total count s with
  | zero => exact Extends.refl ..
  | succ fuel ih =>
    unfold lruLoop
    split
    · exact Extends.refl ..
    · dsimp only
      split
      · exact Extends.refl ..
      · have hbatch := (evictLruBatch_extends service
          (s.table.listLru service.config.registry lruPage) total cap s).imp
            fun row hrow => mem_listLru hrow
        split
        · exact hbatch
        · refine hbatch.trans ((ih _ _ _).imp ?_)
          intro row hrow
          exact ⟨hbatch.table.subset hrow.1, hrow.2⟩

theorem runLruSizeCap_extends (fuel : ℕ) (s : Run) :
    Extends .lru (fun row => row ∈ s.table.rows ∧
      ArtifactTable.inScope service.config.registry row = true) s
      (runLruSizeCap service fuel s).2 := by
  unfold runLruSizeCap
  split
  · exact Extends.refl ..
  · rename_i cap hcap
    dsimp only
    split
    · exact counted_extends (Extends.refl ..)
    · split
      · refine counted_extends ?_
        have hbatch := (evictLruBatch_extends service
          (s.table.listLru service.config.registry MAX_REPORTED_KEYS)
          (s.table.totalSizeBytes service.config.registry) cap s).imp
            fun row hrow => mem_listLru hrow
        unfold previewSizeCap
        dsimp only
        split
        · exact hbatch.of_report rfl
        · exact hbatch
      · have hloop := lruLoop_extends service cap fuel
          (s.table.totalSizeBytes service.config.registry) 0 s
        split
        · rename_i heq
          rw [heq] at hloop
          exact counted_extends hloop
        · rename_i heq
          rw [heq] at hloop
          exact hloop

end Extension

section Successful

/-- The effect of a drop in which no delete fails, or of one in a dry run. -/
def takeOut (strategy : Strategy) (s : Run) (row : ArtifactMeta) : Run where
  table := if s.report.dryRun then s.table else s.table.deleteArtifactMeta row.artifactKey
  blobs :=
    if s.report.dryRun then s.blobs else s.blobs.filter fun key => !decide (key = row.artifactKey)
  report := s.report.record row.artifactKey
  log := s.log ++ [⟨strategy, row, !s.report.dryRun⟩]

def takeAll (strategy : Strategy) (rows : List ArtifactMeta) (s : Run) : Run :=
  rows.foldl (takeOut strategy) s

/-- The candidates that upstream still has. -/
def free (held : List String) (candidates : List ArtifactMeta) : List ArtifactMeta :=
  candidates.filter fun row => !isHeld held row

def kept (held : List String) (candidates : List ArtifactMeta) : List ArtifactMeta :=
  candidates.filter (isHeld held)

def Run.countHeld (s : Run) (n : ℕ) : Run := { s with report := s.report.countHeld n }

theorem record_countHeld (report : EvictionReport) (key : String) (n : ℕ) :
    (report.countHeld n).record key = (report.record key).countHeld n := by
  unfold EvictionReport.record EvictionReport.countHeld
  dsimp only
  split
  · rfl
  · rfl

theorem takeOut_countHeld (strategy : Strategy) (s : Run) (n : ℕ) (row : ArtifactMeta) :
    takeOut strategy (s.countHeld n) row = (takeOut strategy s row).countHeld n := by
  unfold takeOut Run.countHeld
  dsimp only
  rw [record_countHeld]
  rfl

theorem takeAll_countHeld (strategy : Strategy) (rows : List ArtifactMeta) (s : Run) (n : ℕ) :
    takeAll strategy rows (s.countHeld n) = (takeAll strategy rows s).countHeld n := by
  induction rows generalizing s with
  | nil => rfl
  | cons row rows ih =>
    unfold takeAll at ih ⊢
    rw [List.foldl_cons, List.foldl_cons, takeOut_countHeld, ih]

theorem countHeld_countHeld (s : Run) (n m : ℕ) :
    (s.countHeld n).countHeld m = s.countHeld (n + m) := by
  unfold Run.countHeld EvictionReport.countHeld
  dsimp only
  rw [Nat.add_assoc]

theorem dryRun_takeOut (strategy : Strategy) (s : Run) (row : ArtifactMeta) :
    (takeOut strategy s row).report.dryRun = s.report.dryRun :=
  dryRun_record ..

variable {service : EvictionService}

/-- No delete fails from the next drop on. -/
def Works (service : EvictionService) (s : Run) : Prop :=
  ∀ i row, s.log.length ≤ i → service.faults i row = .none

theorem Works.takeOut {s : Run} (h : Works service s) (strategy : Strategy) (row : ArtifactMeta) :
    Works service (takeOut strategy s row) := by
  intro i r hi
  refine h i r (le_trans ?_ hi)
  rw [Eviction.takeOut, List.length_append]
  exact Nat.le_add_right ..

theorem dropArtifact_eq {s : Run} (h : Works service s) (row : ArtifactMeta) (strategy : Strategy) :
    dropArtifact service row strategy s = (true, takeOut strategy s row) := by
  unfold dropArtifact takeOut
  dsimp only
  rw [h s.log.length row le_rfl]
  cases s.report.dryRun with
  | false => rfl
  | true => rfl

theorem dropEach_eq (strategy : Strategy) (candidates : List ArtifactMeta) (count : ℕ) {s : Run}
    (h : Works service s) :
    dropEach service strategy candidates count s =
      (count + (free service.held candidates).length,
        (takeAll strategy (free service.held candidates) s).countHeld
          (kept service.held candidates).length) := by
  induction candidates generalizing count s with
  | nil => rfl
  | cons row candidates ih =>
    unfold dropEach free kept
    rw [List.filter_cons, List.filter_cons]
    by_cases hheld : isHeld service.held row = true
    · have hcounted : Works service (s.countHeld 1) := h
      rw [if_pos hheld, if_pos hheld, if_neg (by rw [hheld]; decide)]
      have hrest := ih count hcounted
      rw [takeAll_countHeld, countHeld_countHeld] at hrest
      rw [List.length_cons, Nat.add_comm _ 1]
      exact hrest
    · rw [if_neg hheld, if_neg hheld, if_pos (by rw [Bool.eq_false_iff.mpr hheld]; rfl),
        dropArtifact_eq h]
      dsimp only
      rw [if_pos rfl, ih (count + 1) (h.takeOut strategy row), List.length_cons, Nat.add_assoc,
        Nat.add_comm 1]
      rfl

theorem takeAll_dryRun (strategy : Strategy) (rows : List ArtifactMeta) (s : Run) :
    (takeAll strategy rows s).report.dryRun = s.report.dryRun := by
  induction rows generalizing s with
  | nil => rfl
  | cons row rows ih => exact (ih (takeOut strategy s row)).trans (dryRun_takeOut ..)

theorem takeAll_log (strategy : Strategy) (rows : List ArtifactMeta) (s : Run) :
    (takeAll strategy rows s).log =
      s.log ++ rows.map fun row => ⟨strategy, row, !s.report.dryRun⟩ := by
  induction rows generalizing s with
  | nil => exact (List.append_nil _).symm
  | cons row rows ih =>
    have hrest := ih (takeOut strategy s row)
    rw [dryRun_takeOut] at hrest
    refine hrest.trans ?_
    rw [takeOut, List.append_assoc, List.singleton_append, List.map_cons]

/-- A dry run leaves both stores as they are. -/
theorem takeAll_dry {s : Run} (hdry : s.report.dryRun = true) (strategy : Strategy)
    (rows : List ArtifactMeta) :
    (takeAll strategy rows s).table = s.table ∧ (takeAll strategy rows s).blobs = s.blobs := by
  induction rows generalizing s with
  | nil => exact ⟨rfl, rfl⟩
  | cons row rows ih =>
    have hrest := ih ((dryRun_takeOut strategy s row).trans hdry)
    refine ⟨hrest.1.trans ?_, hrest.2.trans ?_⟩
    · exact if_pos hdry
    · exact if_pos hdry

/-- A live run takes the rows out of the table. -/
theorem takeAll_live {s : Run} (hlive : s.report.dryRun = false) (strategy : Strategy)
    (rows : List ArtifactMeta) :
    (takeAll strategy rows s).table.rows = s.table.rows.filter fun row =>
      !decide (row.artifactKey ∈ rows.map ArtifactMeta.artifactKey) := by
  induction rows generalizing s with
  | nil => simp [takeAll]
  | cons row rows ih =>
    have hrest := ih ((dryRun_takeOut strategy s row).trans hlive)
    refine hrest.trans ?_
    rw [takeOut, if_neg (by rw [hlive]; decide), ArtifactTable.deleteArtifactMeta,
      List.filter_filter]
    refine List.filter_congr ?_
    intro r _
    by_cases hkey : r.artifactKey = row.artifactKey
    · simp [hkey]
    · simp [hkey]

theorem takeAll_append (strategy : Strategy) (rows rows' : List ArtifactMeta) (s : Run) :
    takeAll strategy (rows ++ rows') s = takeAll strategy rows' (takeAll strategy rows s) :=
  List.foldl_append

theorem Works.takeAll {s : Run} (h : Works service s) (strategy : Strategy)
    (rows : List ArtifactMeta) : Works service (takeAll strategy rows s) := by
  intro i r hi
  refine h i r (le_trans ?_ hi)
  rw [takeAll_log, List.length_append]
  exact Nat.le_add_right ..

end Successful

end BatleHub.Eviction
