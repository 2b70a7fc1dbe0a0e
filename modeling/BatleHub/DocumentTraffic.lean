import BatleHub.DocumentCache

/-!
Writes and document requests, one call at a time. A write is the order of the
calls its body makes; a request takes the generation, looks up, and on a miss
builds from the rows and puts. The rows, and the bodies built from them, are dated
by the writes that took effect in them.
-/
namespace BatleHub.DocumentTraffic

open DocumentCaches Lib.AssocMap

/-- The calls the write paths make, in the words of the source. -/
inductive Call where
  | enforcePublishPolicy
  | getVisibility
  | publish
  | store
  | invalidateDocuments
  | commitPublish
  | firstSightAfterPublish
  | exploreInvalidate
  | runPublishSbom
  | registerInitialOwner
  | removePending
  | storageDelete
  | revokeQuota
  | authorizeWrite
  | checkNamespaceMembership
  | checkOwnershipLifecycleAccess
  | yank
  | unyank
  | deprecate
  | undeprecate
  | unlist
  | relist
  | tombstoneVersion
  | dropVersionBytes
  | deleteReadmeForVersion
  | releaseNameIfLastVersion
  | recordLifecycleAction
  deriving DecidableEq, Repr

inductive WriteOp where
  | publish
  | yank
  | unyank
  | deprecate
  | undeprecate
  | unlist
  | relist
  | deleteVersion
  deriving DecidableEq, Repr

/-- What stands in front of every lifecycle change. -/
def lifecycleChecks : List Call :=
  [.authorizeWrite, .checkNamespaceMembership, .checkOwnershipLifecycleAccess]

/-- The body of a write, call by call. -/
def WriteOp.calls : WriteOp → List Call
  | .publish =>
    -- the documents are invalidated before the commit, not after it
    [.enforcePublishPolicy, .getVisibility, .publish, .store, .invalidateDocuments,
      .commitPublish, .firstSightAfterPublish, .exploreInvalidate, .runPublishSbom,
      .registerInitialOwner]
  | .yank => lifecycleChecks ++ [.yank, .invalidateDocuments, .recordLifecycleAction]
  | .unyank => lifecycleChecks ++ [.unyank, .invalidateDocuments, .recordLifecycleAction]
  | .deprecate => lifecycleChecks ++ [.deprecate, .recordLifecycleAction]
  | .undeprecate => lifecycleChecks ++ [.undeprecate, .recordLifecycleAction]
  | .unlist => lifecycleChecks ++ [.unlist, .recordLifecycleAction]
  | .relist => lifecycleChecks ++ [.relist, .recordLifecycleAction]
  | .deleteVersion =>
    -- an administrator skips the ownership check, which then counts as passed
    lifecycleChecks ++ [.tombstoneVersion, .dropVersionBytes, .deleteReadmeForVersion,
      .releaseNameIfLastVersion, .exploreInvalidate, .recordLifecycleAction]

/-- The call that makes the write visible. A reserved row is pending, and no
reader sees it before the commit. -/
def WriteOp.effect : WriteOp → Call
  | .publish => .commitPublish
  | .yank => .yank
  | .unyank => .unyank
  | .deprecate => .deprecate
  | .undeprecate => .undeprecate
  | .unlist => .unlist
  | .relist => .relist
  | .deleteVersion => .tombstoneVersion

/-- What is left to do when a call fails; `none` where its failure is logged and
the write goes on. -/
def WriteOp.onError : WriteOp → Call → Option (List Call)
  | .publish, .enforcePublishPolicy => some []
  | .publish, .getVisibility => some [.revokeQuota]
  | .publish, .publish => some [.revokeQuota]
  | .publish, .store => some [.removePending, .revokeQuota]
  | .publish, .commitPublish => some [.removePending, .storageDelete, .revokeQuota]
  | .publish, .runPublishSbom => some [.removePending, .storageDelete, .revokeQuota]
  | .publish, _ => none
  | op, c => if c ∈ lifecycleChecks ∨ c = op.effect then some [] else none

/-- How a call ends: with its change made, with nothing to change, or with an error. -/
inductive Outcome where
  | changed
  | unchanged
  | failed
  deriving DecidableEq, Repr

/-- A write under way. `settledAt` is bookkeeping: the generation at which its
row change was made and its last invalidation was done. -/
structure Write where
  op : WriteOp
  registry : String
  rest : List Call
  failed : Bool
  settledAt : Option ℕ
  deriving DecidableEq, Repr

def Write.returnedOk (write : Write) : Bool := write.rest.isEmpty && !write.failed

/-- How far a document request is. A body is the rows it was built from. -/
inductive Phase where
  | started
  | generationRead (generation : ℕ)
  | currentLoaded (generation current : ℕ)
  | hit (body : List ℕ)
  | missed (generation : ℕ)
  | built (generation : ℕ) (body : List ℕ)
  | answered
  deriving DecidableEq, Repr

/-- A document request. `seen` is bookkeeping: the writes to its registry that
had taken effect and returned `Ok` when it started. -/
structure Reader where
  registry : String
  document : Document
  digest : Digest
  seen : List ℕ
  phase : Phase

/-- The rows are the writes that took effect in them, in order. -/
structure World where
  cache : DocumentCache (List ℕ)
  rows : List ℕ
  writes : Assoc ℕ Write
  readers : Assoc ℕ Reader

def World.initial : World := ⟨⟨∅, ∅⟩, [], ∅, ∅⟩

inductive Event where
  | spawn (w : ℕ) (op : WriteOp) (registry : String)
  /-- The next call of a write. -/
  | call (w : ℕ) (outcome : Outcome)
  | request (r : ℕ) (registry : String) (document : Document) (digest : Digest)
  /-- The next step of a document request. -/
  | advance (r : ℕ) (now : ℕ)
  /-- Any entry may go at any time: no order among equally old ones is assumed. -/
  | evict (key : String)

/-- The calls left after one call, and whether the write has failed. A delete
that finds nothing to tombstone returns at once. -/
def Write.next (write : Write) (c : Call) (rest : List Call) : Outcome → List Call × Bool
  | .changed => (rest, write.failed)
  | .unchanged => (if c = .tombstoneVersion then [] else rest, write.failed)
  | .failed =>
    match write.op.onError c with
    | some undo => (undo, true)
    | none => (rest, write.failed)

/-- The write after one call. -/
def Write.took (write : Write) (c : Call) (rest : List Call) (outcome : Outcome) : Write :=
  { write with
    rest := (write.next c rest outcome).1
    failed := (write.next c rest outcome).2 }

def rowsAfter (rows : List ℕ) (w : ℕ) (write : Write) (c : Call) (outcome : Outcome) : List ℕ :=
  if outcome = .changed ∧ c = write.op.effect then rows ++ [w] else rows

def cacheAfter (cache : DocumentCache (List ℕ)) (write : Write) (c : Call) :
    DocumentCache (List ℕ) :=
  if c = .invalidateDocuments then invalidateRegistry cache write.registry else cache

/-- A write settles when its row change is made and no invalidation is left. -/
def settle (cache : DocumentCache (List ℕ)) (rows : List ℕ) (w : ℕ) (write : Write) : Write :=
  if write.settledAt = none ∧ write.failed = false ∧ w ∈ rows ∧
      Call.invalidateDocuments ∉ write.rest then
    { write with settledAt := some (generation cache write.registry) }
  else write

def performCall (s : World) (w : ℕ) (write : Write) (c : Call) (rest : List Call)
    (outcome : Outcome) : World :=
  let rows := rowsAfter s.rows w write c outcome
  let cache := cacheAfter s.cache write c
  { s with
    cache := cache
    rows := rows
    writes := s.writes.insert w (settle cache rows w (write.took c rest outcome)) }

def World.setPhase (s : World) (r : ℕ) (reader : Reader) (phase : Phase) : World :=
  { s with readers := s.readers.insert r { reader with phase := phase } }

def Reader.key (reader : Reader) : String :=
  documentKey reader.registry reader.document reader.digest

/-- `cached_document`, and on a miss the build and `store_document`. The
generation is read before the lookup, and the lookup loads it once more. The
build takes several queries; its body is dated by the first. -/
def advanceReader (s : World) (r : ℕ) (reader : Reader) (now : ℕ) : World :=
  match reader.phase with
  | .started => s.setPhase r reader (.generationRead (generation s.cache reader.registry))
  | .generationRead g =>
    s.setPhase r reader (.currentLoaded g (generation s.cache reader.registry))
  | .currentLoaded g current =>
    match getAt s.cache.entries current now reader.key with
    | some body => s.setPhase r reader (.hit body)
    | none => s.setPhase r reader (.missed g)
  | .missed g => s.setPhase r reader (.built g s.rows)
  | .built g body =>
    { s with cache := put s.cache reader.key body g now }.setPhase r reader .answered
  | .hit _ => s
  | .answered => s

/-- The writes a request that starts now must reflect. -/
def World.effective (s : World) (registry : String) : List ℕ :=
  s.rows.filter fun w => (s.writes.lookup w).any fun write =>
    decide (write.registry = registry) && write.returnedOk

def step (s : World) : Event → World
  | .spawn w op registry =>
    match s.writes.lookup w with
    | some _ => s
    | none => { s with writes := s.writes.insert w ⟨op, registry, op.calls, false, none⟩ }
  | .call w outcome =>
    match s.writes.lookup w with
    | none => s
    | some write =>
      match write.rest with
      | [] => s
      | c :: rest => performCall s w write c rest outcome
  | .request r registry document digest =>
    match s.readers.lookup r with
    | some _ => s
    | none =>
      { s with
        readers := s.readers.insert r
          ⟨registry, document, digest, s.effective registry, .started⟩ }
  | .advance r now =>
    match s.readers.lookup r with
    | none => s
    | some reader => advanceReader s r reader now
  | .evict key => { s with cache := { s.cache with entries := s.cache.entries.erase key } }

end BatleHub.DocumentTraffic
