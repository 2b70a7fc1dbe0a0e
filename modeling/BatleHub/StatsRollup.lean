import BatleHub.Lib.AssocMap
import BatleHub.Lib.Slots
import BatleHub.Vocabulary
import BatleHub.Verdicts
import Mathlib.Algebra.Order.Ring.Nat

/-!
The cache statistics of a registry (`services/stats_rollup.rs`): live counters that only
grow, and a tick that writes what they gained since the previous one into the history. The
counters are read one after the other under the baseline's lock; the lock is given back
before the history is written, so that ticks overlap there. Rows are merged per registry and
hour (`in_memory/stats_history.rs`, `db/stats_history.rs`).
-/
namespace BatleHub.StatsRollup

open Lib Lib.AssocMap LocalPackages
open Verdicts (nanosPerSecond)

section Rows

inductive Counter where
  | hits
  | misses
  | listingReads
  deriving DecidableEq, Repr

/-- The three counters of a registry. -/
structure Counts where
  hits : ℕ
  misses : ℕ
  listingReads : ℕ
  deriving DecidableEq, Repr

namespace Counts

def zero : Counts := ⟨0, 0, 0⟩

def get (c : Counts) : Counter → ℕ
  | .hits => c.hits
  | .misses => c.misses
  | .listingReads => c.listingReads

/-- `fetch_add(1)` on one of them. -/
def increment (c : Counts) : Counter → Counts
  | .hits => { c with hits := c.hits + 1 }
  | .misses => { c with misses := c.misses + 1 }
  | .listingReads => { c with listingReads := c.listingReads + 1 }

theorem get_le_increment (c : Counts) (k k' : Counter) : c.get k' ≤ (c.increment k).get k' := by
  cases k <;> cases k' <;> simp [get, increment]

end Counts

structure StatsRollupRow where
  registry : String
  windowStart : DateTime
  hits : ℕ
  misses : ℕ
  listingReads : ℕ
  cachedBytes : ℕ
  deriving DecidableEq, Repr

namespace StatsRollupRow

def get (row : StatsRollupRow) : Counter → ℕ
  | .hits => row.hits
  | .misses => row.misses
  | .listingReads => row.listingReads

/-- Deltas accumulate on conflict, the level is replaced. -/
def merge (existing row : StatsRollupRow) : StatsRollupRow :=
  { existing with
    hits := existing.hits + row.hits
    misses := existing.misses + row.misses
    listingReads := existing.listingReads + row.listingReads
    cachedBytes := row.cachedBytes }

theorem get_merge (existing row : StatsRollupRow) (k : Counter) :
    (existing.merge row).get k = existing.get k + row.get k := by
  cases k <;> rfl

end StatsRollupRow

def hourStart (instant : DateTime) : DateTime :=
  instant.fdiv (3600 * nanosPerSecond) * (3600 * nanosPerSecond)

def upsert : List StatsRollupRow → StatsRollupRow → List StatsRollupRow
  | [], row => [row]
  | existing :: rest, row =>
    if existing.registry = row.registry ∧ existing.windowStart = row.windowStart then
      existing.merge row :: rest
    else existing :: upsert rest row

def upsertAll (history rows : List StatsRollupRow) : List StatsRollupRow :=
  rows.foldl upsert history

def pruneBefore (history : List StatsRollupRow) (cutoff : DateTime) : List StatsRollupRow :=
  history.filter fun row => decide (cutoff ≤ row.windowStart)

/-- What some rows say of one counter of a registry. -/
def total (k : Counter) (registry : String) (rows : List StatsRollupRow) : ℕ :=
  ((rows.filter fun row => decide (row.registry = registry)).map fun row => row.get k).sum

end Rows

section Ticks

/-- How far the three loads of the registry at hand have come. -/
inductive Loading where
  | start
  | hits (hits : ℕ)
  | misses (hits misses : ℕ)
  deriving DecidableEq, Repr

/-- A tick, with what it read kept to its end. -/
inductive Tick where
  | waiting (now : DateTime) (cached : Assoc String ℕ)
  | reading (now : DateTime) (cached : Assoc String ℕ) (todo : List String) (loading : Loading)
      (rows : List StatsRollupRow) (read : List (String × Counts))
  | appending (now : DateTime) (rows : List StatsRollupRow) (read : List (String × Counts))
  | pruning (now : DateTime) (written : ℕ) (read : List (String × Counts))
  | done (result : Except CoreError ℕ) (read : List (String × Counts))
  deriving DecidableEq

namespace Tick

/-- The rows a tick has computed and not yet written. -/
def rows : Tick → List StatsRollupRow
  | waiting _ _ => []
  | reading _ _ _ _ rows _ => rows
  | appending _ rows _ => rows
  | pruning _ _ _ => []
  | done _ _ => []

def read : Tick → List (String × Counts)
  | waiting _ _ => []
  | reading _ _ _ _ _ read => read
  | appending _ _ read => read
  | pruning _ _ read => read
  | done _ read => read

end Tick

/-- What becomes of a write to the history: made, not made, or made with an error reported
all the same. -/
inductive WriteOutcome where
  | stored
  | refused (e : CoreError)
  | unreported (e : CoreError)

inductive Event where
  | record (registry : String) (counter : Counter)
  | start (now : DateTime) (cached : Assoc String ℕ)
  | acquire (i : ℕ)
  | load (i : ℕ)
  | release (i : ℕ)
  | append (i : ℕ) (outcome : WriteOutcome)
  | prune (i : ℕ) (outcome : WriteOutcome)

/-- The service's registries and its retention. -/
structure Settings where
  names : List String
  retentionDays : ℕ
  distinct : names.Nodup

/-- The process and the history. `appended` and `lost` are the rows of every write that took
effect and of every write that did not. -/
structure World where
  counters : String → Counts
  baseline : Assoc String Counts
  holder : Option ℕ
  ticks : List Tick
  history : List StatsRollupRow
  appended : List StatsRollupRow
  lost : List StatsRollupRow

def World.init : World where
  counters := fun _ => Counts.zero
  baseline := ∅
  holder := none
  ticks := []
  history := []
  appended := []
  lost := []

/-- The counters at the previous tick. -/
def World.baselineOf (w : World) (registry : String) : Counts :=
  (w.baseline.lookup registry).getD Counts.zero

def rowOf (now : DateTime) (cached : Assoc String ℕ) (registry : String) (counts prev : Counts) :
    StatsRollupRow where
  registry := registry
  windowStart := hourStart now
  hits := counts.hits - prev.hits
  misses := counts.misses - prev.misses
  listingReads := counts.listingReads - prev.listingReads
  cachedBytes := (cached.lookup registry).getD 0

variable (settings : Settings)

/-- After a write that was reported as stored. -/
def afterAppend (now : DateTime) (written : ℕ) (read : List (String × Counts)) : Tick :=
  if 0 < settings.retentionDays then .pruning now written read else .done (.ok written) read

def retentionCutoff (now : DateTime) : DateTime :=
  now - settings.retentionDays * (86400 * nanosPerSecond)

def step (w : World) : Event → World
  | .record registry counter =>
    if registry ∈ settings.names then
      { w with
        counters := Function.update w.counters registry
          ((w.counters registry).increment counter) }
    else w
  | .start now cached => { w with ticks := w.ticks ++ [.waiting now cached] }
  | .acquire i =>
    match w.ticks[i]?, w.holder with
    | some (.waiting now cached), none =>
      { w with
        holder := some i
        ticks := w.ticks.set i (.reading now cached settings.names .start [] []) }
    | _, _ => w
  | .load i =>
    match w.ticks[i]? with
    | some (.reading now cached (registry :: todo) loading rows read) =>
      let counts := w.counters registry
      match loading with
      | .start =>
        { w with
          ticks := w.ticks.set i
            (.reading now cached (registry :: todo) (.hits counts.hits) rows read) }
      | .hits hits =>
        { w with
          ticks := w.ticks.set i
            (.reading now cached (registry :: todo) (.misses hits counts.misses) rows read) }
      | .misses hits misses =>
        let seen : Counts := ⟨hits, misses, counts.listingReads⟩
        let row := rowOf now cached registry seen (w.baselineOf registry)
        { w with
          baseline := w.baseline.insert registry seen
          ticks := w.ticks.set i
            (.reading now cached todo .start (rows ++ [row]) (read ++ [(registry, seen)])) }
    | _ => w
  | .release i =>
    match w.ticks[i]? with
    | some (.reading now _ [] _ rows read) =>
      { w with
        holder := none
        ticks := w.ticks.set i
          (if rows = [] then .done (.ok 0) read else .appending now rows read) }
    | _ => w
  | .append i outcome =>
    match w.ticks[i]? with
    | some (.appending now rows read) =>
      match outcome with
      | .stored =>
        { w with
          history := upsertAll w.history rows
          appended := w.appended ++ rows
          ticks := w.ticks.set i (afterAppend settings now rows.length read) }
      | .refused e =>
        { w with
          lost := w.lost ++ rows
          ticks := w.ticks.set i (.done (.error e) read) }
      | .unreported e =>
        { w with
          history := upsertAll w.history rows
          appended := w.appended ++ rows
          ticks := w.ticks.set i (.done (.error e) read) }
    | _ => w
  | .prune i outcome =>
    match w.ticks[i]? with
    | some (.pruning now written read) =>
      match outcome with
      | .stored =>
        { w with
          history := pruneBefore w.history (retentionCutoff settings now)
          ticks := w.ticks.set i (.done (.ok written) read) }
      | .refused e => { w with ticks := w.ticks.set i (.done (.error e) read) }
      | .unreported e =>
        { w with
          history := pruneBefore w.history (retentionCutoff settings now)
          ticks := w.ticks.set i (.done (.error e) read) }
    | _ => w

end Ticks

end BatleHub.StatsRollup
