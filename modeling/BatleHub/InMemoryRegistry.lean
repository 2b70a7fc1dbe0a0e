import BatleHub.LocalPackages
import BatleHub.Lib.AssocMap
import BatleHub.Lib.Texts
import Mathlib.Data.List.Sort

/-!
The in-memory store of published versions (`local_registry/in_memory.rs`). One
record for each coordinate goes from pending to published to deleted. A publish
reserves the row, a commit promotes it, a rollback removes it, and a delete turns
it into a tombstone; the setters touch published rows only.
-/
namespace BatleHub.InMemoryRegistry

open LocalPackages Lib.AssocMap Lib.Texts

inductive RecordStatus where
  | pending
  | published
  | deleted
  deriving DecidableEq, Repr

/-- The half of a tombstone that outlives compaction. -/
structure DeletionMark where
  deletedAt : DateTime
  deletedBy : Option String
  detailCompactedAt : Option DateTime
  deriving DecidableEq, Repr

structure Record where
  pkg : PublishedPackage
  status : RecordStatus
  insertedAt : DateTime
  deletion : Option DeletionMark
  deriving Repr

/-- The tombstone view of a deleted record. An empty checksum reads as absent. -/
def Record.asTombstone (r : Record) : Option Tombstone :=
  r.deletion.map fun mark =>
    { registry := r.pkg.registry
      name := r.pkg.name
      version := r.pkg.version
      deletedAt := mark.deletedAt
      deletedBy := mark.deletedBy
      detailCompactedAt := mark.detailCompactedAt
      publishedAt := r.pkg.publishedAt
      publishedBy := r.pkg.publishedBy
      checksum := if r.pkg.checksum = "" then none else some r.pkg.checksum }

/-- The records, under their package key and version. -/
abbrev Store := Assoc (String × String) Record

section Operations
variable (env : TextEnv)

def pkgKey (registry name : String) : String := registry ++ ":" ++ env.toLowercase name

def recordKey (registry name version : String) : String × String :=
  (pkgKey env registry name, version)

/-- Insert the version as pending. A published or deleted coordinate is refused,
a stale pending row is overwritten. -/
def publish (now : DateTime) (pkg : PublishedPackage) (store : Store) :
    Except CoreError Store :=
  let key := recordKey env pkg.registry pkg.name pkg.version
  let inserted := store.insert key ⟨pkg, .pending, now, none⟩
  match store.lookup key with
  | none => .ok inserted
  | some existing =>
    match existing.asTombstone with
    | some ts => .error (.conflict (ts.burnedCoordinateMessage env))
    | none =>
      if existing.status = .published then
        .error (.conflict (pkg.name ++ "@" ++ pkg.version ++ " already published in registry '" ++
          pkg.registry ++ "'"))
      else .ok inserted

/-- Promote the row to published, whatever state it is in. -/
def commitPublish (registry name version : String) (store : Store) : Store :=
  modify (recordKey env registry name version) (fun r => { r with status := .published }) store

/-- The record of the coordinate, if it is published. -/
def published? (registry name version : String) (store : Store) : Option Record :=
  (store.lookup (recordKey env registry name version)).filter fun r =>
    decide (r.status = .published)

/-- Change the record of the coordinate, if it is published. -/
def updatePublished (registry name version : String) (f : Record → Record) (store : Store) :
    Store :=
  match published? env registry name version store with
  | none => store
  | some r => store.insert (recordKey env registry name version) (f r)

/-- Change a published record's package and nothing else of it. -/
def updatePackage (registry name version : String) (f : PublishedPackage → PublishedPackage)
    (store : Store) : Store :=
  updatePublished env registry name version (fun r => { r with pkg := f r.pkg }) store

def yank (registry name version : String) (store : Store) : Store :=
  updatePackage env registry name version (fun p =>
    { p with yanked := true, indexMetadata := p.indexMetadata.insertField "yanked" (.bool true) })
    store

def unyank (registry name version : String) (store : Store) : Store :=
  updatePackage env registry name version (fun p =>
    { p with yanked := false, indexMetadata := p.indexMetadata.insertField "yanked" (.bool false) })
    store

def deprecateVersion (registry name version : String) (message : Option String) (store : Store) :
    Store :=
  updatePackage env registry name version (fun p =>
    { p with
      deprecated := true
      deprecationMessage := message
      indexMetadata := p.indexMetadata.insertField "deprecated"
        (.string (message.getD "true")) })
    store

def undeprecateVersion (registry name version : String) (store : Store) : Store :=
  updatePackage env registry name version (fun p =>
    { p with
      deprecated := false
      deprecationMessage := none
      indexMetadata := p.indexMetadata.removeField "deprecated" })
    store

def unlist (registry name version : String) (store : Store) : Store :=
  updatePackage env registry name version (fun p => { p with unlisted := true }) store

def relist (registry name version : String) (store : Store) : Store :=
  updatePackage env registry name version (fun p => { p with unlisted := false }) store

/-- Whether the channel changed, and the store after it. -/
def setChannel (registry name version channel : String) (store : Store) : Bool × Store :=
  match published? env registry name version store with
  | none => (false, store)
  | some r =>
    if ((r.pkg.indexMetadata.get "channel").bind Json.asStr).getD "" = channel then (false, store)
    else
      (true, updatePackage env registry name version (fun p =>
        { p with indexMetadata := p.indexMetadata.insertField "channel" (.string channel) }) store)

def setVsixSignatureProvided (registry name version : String) (provided : Bool) (store : Store) :
    Bool × Store :=
  match published? env registry name version store with
  | none => (false, store)
  | some r =>
    let current :=
      decide ((r.pkg.indexMetadata.get "vsixSignature").bind Json.asStr = some "provided")
    if current = provided then (false, store)
    else if !r.pkg.indexMetadata.isObject then (false, store)
    else
      (true, updatePackage env registry name version (fun p =>
        { p with
          indexMetadata :=
            if provided then p.indexMetadata.insertField "vsixSignature" (.string "provided")
            else p.indexMetadata.removeField "vsixSignature" }) store)

def setRetentionKeep (registry name version : String) (keep : Bool) (store : Store) :
    Bool × Store :=
  match published? env registry name version store with
  | none => (false, store)
  | some r =>
    if r.pkg.retentionKeep = keep then (false, store)
    else
      (true, updatePackage env registry name version (fun p => { p with retentionKeep := keep })
        store)

/-- Rollback: remove the row unless it is a tombstone. -/
def removeVersion (registry name version : String) (store : Store) : Store :=
  let key := recordKey env registry name version
  if (store.lookup key).any fun r => decide (r.status = .deleted) then store
  else store.erase key

/-- Delete a published version; `false` when there is none. -/
def tombstoneVersion (now : DateTime) (registry name version : String)
    (deletedBy : Option String) (store : Store) : Bool × Store :=
  match published? env registry name version store with
  | none => (false, store)
  | some _ =>
    (true, updatePublished env registry name version (fun r =>
      { r with status := .deleted, deletion := some ⟨now, deletedBy, none⟩ }) store)

def findTombstone (registry name version : String) (store : Store) : Option Tombstone :=
  (store.lookup (recordKey env registry name version)).bind Record.asTombstone

/-- The published versions of a package, oldest first. -/
def getVersions (registry name : String) (store : Store) : List PublishedPackage :=
  ((store.entries.filter fun e => decide (e.1.1 = pkgKey env registry name) &&
    decide (e.2.status = .published)).map fun e => e.2.pkg).insertionSort
    fun a b => a.publishedAt ≤ b.publishedAt

def existsPublished (registry name : String) (store : Store) : Bool :=
  store.entries.any fun e => decide (e.1.1 = pkgKey env registry name) &&
    decide (e.2.status = .published)

theorem publish_eq_ok {now : DateTime} {pkg : PublishedPackage} {store store' : Store}
    (h : publish env now pkg store = .ok store') :
    store' = store.insert (recordKey env pkg.registry pkg.name pkg.version)
        ⟨pkg, .pending, now, none⟩ ∧
      ∀ r, store.lookup (recordKey env pkg.registry pkg.name pkg.version) = some r →
        r.deletion = none ∧ r.status ≠ .published := by
  unfold publish at h
  cases hold : store.lookup (recordKey env pkg.registry pkg.name pkg.version) with
  | none =>
    simp only [hold, Except.ok.injEq] at h
    exact ⟨h.symm, by simp⟩
  | some existing =>
    cases htomb : existing.asTombstone with
    | some ts => simp [hold, htomb] at h
    | none =>
      simp only [hold, htomb] at h
      split at h
      · simp at h
      · rename_i hstatus
        refine ⟨(Except.ok.inj h).symm, ?_⟩
        intro r hr
        obtain rfl := Option.some.inj hr
        exact ⟨by simpa [Record.asTombstone] using htomb, hstatus⟩

theorem lookup_updatePublished (registry name version : String) (f : Record → Record)
    (store : Store) (key : String × String) :
    (updatePublished env registry name version f store).lookup key =
      if key = recordKey env registry name version then
        (store.lookup key).map fun r => if r.status = .published then f r else r
      else store.lookup key := by
  unfold updatePublished published?
  cases h : store.lookup (recordKey env registry name version) with
  | none =>
    by_cases hk : key = recordKey env registry name version
    · subst hk
      simp [h]
    · simp [hk]
  | some r =>
    by_cases hs : r.status = .published
    · by_cases hk : key = recordKey env registry name version
      · subst hk
        simp [h, hs, Option.filter]
      · simp [hs, hk, Option.filter]
    · by_cases hk : key = recordKey env registry name version
      · subst hk
        simp [h, hs, Option.filter]
      · simp [hs, hk, Option.filter]

theorem lookup_removeVersion (registry name version : String) (store : Store)
    (key : String × String) :
    (removeVersion env registry name version store).lookup key =
      if key = recordKey env registry name version then
        (store.lookup key).filter fun r => decide (r.status = .deleted)
      else store.lookup key := by
  unfold removeVersion
  dsimp only
  by_cases hk : key = recordKey env registry name version
  · subst hk
    cases hr : store.lookup (recordKey env registry name version) with
    | none => simp
    | some r =>
      by_cases hs : r.status = .deleted
      · simp [hr, hs, Option.filter]
      · simp [hs, Option.filter]
  · split
    · simp
    · simp [hk]

theorem lookup_tombstoneVersion (now : DateTime) (registry name version : String)
    (deletedBy : Option String) (store : Store) (key : String × String) :
    (tombstoneVersion env now registry name version deletedBy store).2.lookup key =
      if key = recordKey env registry name version then
        (store.lookup key).map fun r =>
          if r.status = .published then
            { r with status := .deleted, deletion := some ⟨now, deletedBy, none⟩ }
          else r
      else store.lookup key := by
  unfold tombstoneVersion
  cases hpub : published? env registry name version store with
  | none =>
    by_cases hk : key = recordKey env registry name version
    · subst hk
      cases hr : store.lookup (recordKey env registry name version) with
      | none => simp
      | some r =>
        have hs : r.status ≠ .published := by
          simpa [published?, hr, Option.filter] using hpub
        simp [hs]
    · simp [hk]
  | some r => exact lookup_updatePublished env registry name version _ store key

end Operations

/-- The longest duration that converts, in nanoseconds: `i64::MAX` milliseconds. -/
def maxDuration : ℕ := (2 ^ 63 - 1) * 10 ^ 6

def fromStd (d : ℕ) : Option ℤ := if d ≤ maxDuration then some d else none

/-- Whether compaction strips this record: a mark old enough and not stripped yet. -/
def compacts (cutoff : DateTime) (mark : DeletionMark) : Bool :=
  !(mark.detailCompactedAt.isSome || decide (cutoff ≤ mark.deletedAt))

/-- Strip the detail and stamp the mark. The claim itself stays. -/
def stripDetail (now cutoff : DateTime) (r : Record) : Record :=
  match r.deletion with
  | none => r
  | some mark =>
    if compacts cutoff mark then
      { r with
        deletion := some { mark with detailCompactedAt := some now }
        pkg := { r.pkg with
          indexMetadata := Json.emptyObject
          checksum := ""
          publishedBy := none
          signatureBytes := none
          signatureType := none
          deprecationMessage := none } }
    else r

def compactTombstoneDetail (now : DateTime) (registry : String) (olderThan : ℕ) (dryRun : Bool)
    (store : Store) : CompactionReport × Store :=
  match fromStd olderThan with
  | none => (⟨0, 0, dryRun, []⟩, store)
  | some duration =>
    let cutoff := now - duration
    let inRegistry := fun key : String × String => startsWith key.1 (registry ++ ":")
    let marked := store.entries.filter fun e => inRegistry e.1 && e.2.deletion.isSome
    let coordinates := ((marked.filter fun e => e.2.deletion.any (compacts cutoff)).map
      fun e => e.2.pkg.name ++ "@" ++ e.2.pkg.version).insertionSort (· ≤ ·)
    (⟨coordinates.length, marked.length - coordinates.length, dryRun, coordinates⟩,
      if dryRun then store
      else mapValues (fun key r => if inRegistry key then stripDetail now cutoff r else r) store)

/-- Remove the pending rows inserted before the cutoff, and count them. -/
def cleanupPending (now : DateTime) (olderThan : ℕ) (store : Store) : ℕ × Store :=
  match fromStd olderThan with
  | none => (0, store)
  | some duration =>
    let kept := retain (fun _ r =>
      !(decide (r.status = .pending) && decide (r.insertedAt < now - duration))) store
    (store.entries.length - kept.entries.length, kept)

end BatleHub.InMemoryRegistry
