import BatleHub.RouterRefinement

/-!
Calls of the router side by side. A transaction's statements lock the rows they read
for update or write, and what it wrote is there for others from its commit on; a row
nobody else sees yet is waited for by an insert alone. The operations on a backend stand
where the code performs them: the blob is written before the commit, and removed after.
No backend operation fails. A statement that waits is a step that does nothing yet.
-/
namespace BatleHub.StorageRouter.Traffic

open Lib AssocMap

variable {β : Type} [DecidableEq β]

/-- The committed rows, the locks of the transactions in flight, and the objects. -/
structure Db (β : Type) where
  tables : Tables
  refLocks : String → Option ℕ
  indexLocks : String → Option ℕ
  objects : Objects β

section Locks

def heldByOther (locks : String → Option ℕ) (row : String) (id : ℕ) : Bool :=
  match locks row with
  | none => false
  | some other => decide (other ≠ id)

def lock (locks : String → Option ℕ) (row : String) (id : ℕ) : String → Option ℕ :=
  Function.update locks row (some id)

/-- A commit or a rollback frees every row the transaction holds. -/
def unlock (locks : String → Option ℕ) (id : ℕ) : String → Option ℕ :=
  fun row => if locks row = some id then none else locks row

def Db.lockRef (db : Db β) (key : String) (id : ℕ) : Db β :=
  { db with refLocks := lock db.refLocks key id }

def Db.lockIndex (db : Db β) (hash : String) (id : ℕ) : Db β :=
  { db with indexLocks := lock db.indexLocks hash id }

def Db.unlockAll (db : Db β) (id : ℕ) : Db β :=
  { db with refLocks := unlock db.refLocks id, indexLocks := unlock db.indexLocks id }

end Locks

section Calls

inductive StoreKind where
  | inline
  | streaming
  | promotion
  deriving DecidableEq, Repr

/-- What a storing transaction has written besides the reference: the new row of its hash,
and the row left of the hash it replaces. -/
structure Pending where
  existing : Option String
  row : IndexRow
  released : Option IndexRow

inductive StorePhase where
  | staging
  | selecting
  | reusing
  | reuseDiscarding
  | restoring
  | upserting (existing : Option String)
  | mapping (existing : Option String) (row : IndexRow)
  | releasing (oldHash : String) (row : IndexRow)
  | dropping (oldHash : String) (row : IndexRow)
  | checking (p : Pending)
  | placing (p : Pending)
  | discarding (p : Pending)
  | committing (p : Pending)
  | recording

structure StoreCall where
  kind : StoreKind
  key : String
  data : Bytes
  size : Option ℕ
  phase : StorePhase

/-- The joined row a delete has read. -/
structure DedupEntry where
  hash : String
  contentKey : String
  backendName : String

inductive DeletePhase (β : Type) where
  | reading
  | legacy
  | legacyDeleting (leaf : β)
  | removing (e : DedupEntry)
  | releasing (e : DedupEntry) (removed : Option String)
  | dropping (e : DedupEntry) (removed : Option String)
  | committing (e : DedupEntry) (removed : Option String) (released : Option IndexRow)
  | purging (e : DedupEntry)
  | forgetting

structure DeleteCall (β : Type) where
  key : String
  phase : DeletePhase β

inductive Call (β : Type) where
  | store (c : StoreCall)
  | delete (c : DeleteCall β)

/-- The staging key of a call in flight; no two calls in flight have the same. -/
def StoreCall.source (c : StoreCall) (id : ℕ) : BlobSource :=
  match c.kind with
  | .inline => .inline c.data
  | .streaming => .staged (stagingBlobKey (toString id))
  | .promotion => .staged (STAGING_PREFIX ++ toString id ++ "/" ++ c.key)

end Calls

section Storing
variable (r : Router β) (sha256Hex : Bytes → String)

/-- The row the upsert leaves for the hash. -/
def upsertedRow (t : Tables) (hash contentKey : String) (size : Option ℕ) : IndexRow :=
  match t.index.lookup hash with
  | none => ⟨contentKey, 1, size⟩
  | some row => { row with refCount := row.refCount + 1 }

def Pending.commit (p : Pending) (t : Tables) (key hash : String) : Tables :=
  let index := t.index.insert hash p.row
  let index :=
    match p.existing with
    | none => index
    | some oldHash =>
      match p.released with
      | none => index.erase oldHash
      | some row => index.insert oldHash row
  { t with refs := t.refs.insert key hash, index := index }

/-- The rows of other keys that refer to the hash, as the foreign key sees them. -/
def referring (t : Tables) (hash : String) (own : String → Bool) : List String :=
  (t.refs.entries.filter fun e => decide (e.2 = hash) && !own e.1).map Sigma.fst

/-- Roll back, drop what is staged, and return an error. -/
def abortStore (db : Db β) (id : ℕ) (c : StoreCall) : Db β × Option (Call β) :=
  let db := db.unlockAll id
  ({ db with objects := (c.source id).discardStaged .ok db.objects (r.leafOf c.key) }, none)

/-- One statement or backend operation of a store. -/
def advanceStore (db : Db β) (id : ℕ) (c : StoreCall) : Db β × Option (Call β) :=
  let hash := sha256Hex c.data
  let contentKey := contentKeyOf hash
  let leaf := r.leafOf c.key
  let goto := fun phase => some (Call.store { c with phase := phase })
  match c.phase with
  | .staging =>
    match c.source id with
    | .inline _ => (db, goto .selecting)
    | .staged stagingKey =>
      ({ db with objects := (leafStore .ok db.objects leaf stagingKey c.data).2 }, goto .selecting)
  | .selecting =>
    match db.tables.refs.lookup c.key with
    | none => (db, goto (.upserting none))
    | some existing =>
      if heldByOther db.refLocks c.key id then (db, some (.store c))
      else if existing = hash then (db, goto .reusing)
      else (db.lockRef c.key id, goto (.upserting (some existing)))
  | .reusing =>
    if leafExists .ok db.objects leaf contentKey then (db, goto .reuseDiscarding)
    else (db, goto .restoring)
  | .reuseDiscarding =>
    ({ db with objects := (c.source id).discardStaged .ok db.objects leaf }, goto .recording)
  | .restoring =>
    match (c.source id).materialize .ok db.objects leaf contentKey with
    | (.error _, objs) => abortStore r { db with objects := objs } id c
    | (.ok _, objs) => ({ db with objects := objs }, goto .recording)
  | .upserting existing =>
    if heldByOther db.indexLocks hash id then (db, some (.store c))
    else (db.lockIndex hash id, goto (.mapping existing (upsertedRow db.tables hash contentKey c.size)))
  | .mapping existing row =>
    if heldByOther db.refLocks c.key id then (db, some (.store c))
    else
      (db.lockRef c.key id,
        match existing with
        | none => goto (.checking ⟨none, row, none⟩)
        | some oldHash => goto (.releasing oldHash row))
  | .releasing oldHash row =>
    match db.tables.index.lookup oldHash with
    | none => abortStore r db id c
    | some oldRow =>
      if heldByOther db.indexLocks oldHash id then (db, some (.store c))
      else if oldRow.refCount - 1 ≤ 0 then (db.lockIndex oldHash id, goto (.dropping oldHash row))
      else
        (db.lockIndex oldHash id, goto (.checking
          ⟨some oldHash, row, some { oldRow with refCount := oldRow.refCount - 1 }⟩))
  | .dropping oldHash row =>
    let rows := referring db.tables oldHash fun key => decide (key = c.key)
    if rows.any fun key => heldByOther db.refLocks key id then (db, some (.store c))
    else if !rows.isEmpty then abortStore r db id c
    else (db, goto (.checking ⟨some oldHash, row, none⟩))
  | .checking p =>
    if decide (p.row.refCount > 1) && leafExists .ok db.objects leaf contentKey then
      (db, goto (.discarding p))
    else (db, goto (.placing p))
  | .placing p =>
    match (c.source id).materialize .ok db.objects leaf contentKey with
    | (.error _, objs) => abortStore r { db with objects := objs } id c
    | (.ok _, objs) => ({ db with objects := objs }, goto (.committing p))
  | .discarding p =>
    ({ db with objects := (c.source id).discardStaged .ok db.objects leaf }, goto (.committing p))
  | .committing p =>
    ({ db with tables := p.commit db.tables c.key hash }.unlockAll id, goto .recording)
  | .recording =>
    ({ db with tables := db.tables.recordBackend c.key (r.backendNameForKey c.key) c.size }, none)

end Storing

section Deleting
variable (r : Router β)

/-- What the commit of a delete leaves: the row it found is gone, the hash has one less. -/
def commitDelete (t : Tables) (key : String) (e : DedupEntry) (removed : Option String)
    (released : Option IndexRow) : Tables :=
  { t with
    refs := if removed.isSome then t.refs.erase key else t.refs
    index :=
      match released with
      | none => t.index.erase e.hash
      | some row => t.index.insert e.hash row }

/-- One statement or backend operation of a delete. -/
def advanceDelete (db : Db β) (id : ℕ) (c : DeleteCall β) : Db β × Option (Call β) :=
  let goto := fun phase => some (Call.delete { c with phase := phase })
  match c.phase with
  | .reading =>
    match db.tables.dedupRow r.defaultName c.key with
    | none => (db, goto .legacy)
    | some (hash, contentKey, backendName) => (db, goto (.removing ⟨hash, contentKey, backendName⟩))
  | .legacy => (db, goto (.legacyDeleting (legacyBackendFor r db.tables c.key)))
  | .legacyDeleting leaf =>
    ({ db with objects := (leafDelete .ok db.objects leaf c.key).2 }, goto .forgetting)
  | .removing e =>
    match db.tables.refs.lookup c.key with
    | none => (db, goto (.releasing e none))
    | some hash =>
      if heldByOther db.refLocks c.key id then (db, some (.delete c))
      else (db.lockRef c.key id, goto (.releasing e (some hash)))
  | .releasing e removed =>
    match db.tables.index.lookup e.hash with
    | none => (db.unlockAll id, none)
    | some row =>
      if heldByOther db.indexLocks e.hash id then (db, some (.delete c))
      else if row.refCount - 1 ≤ 0 then (db.lockIndex e.hash id, goto (.dropping e removed))
      else
        (db.lockIndex e.hash id,
          goto (.committing e removed (some { row with refCount := row.refCount - 1 })))
  | .dropping e removed =>
    let rows := referring db.tables e.hash fun key => decide (key = c.key) && removed.isSome
    if rows.any fun key => heldByOther db.refLocks key id then (db, some (.delete c))
    else if !rows.isEmpty then (db.unlockAll id, none)
    else (db, goto (.committing e removed none))
  | .committing e removed released =>
    ({ db with tables := commitDelete db.tables c.key e removed released }.unlockAll id,
      match released with
      | none => goto (.purging e)
      | some _ => goto .forgetting)
  | .purging e =>
    ({ db with objects :=
        (leafDelete .ok db.objects (r.resolveBackend e.backendName) e.contentKey).2 },
      goto .forgetting)
  | .forgetting => ({ db with tables := db.tables.forgetBackend c.key }, none)

end Deleting

section Steps
variable (r : Router β) (sha256Hex : Bytes → String)

structure State (β : Type) where
  db : Db β
  calls : Assoc ℕ (Call β)

def State.empty : State β := ⟨⟨Tables.empty, fun _ => none, fun _ => none, fun _ _ => none⟩, ∅⟩

inductive Event where
  | startStore (id : ℕ) (kind : StoreKind) (key : String) (data : Bytes) (size : Option ℕ)
  | startDelete (id : ℕ) (key : String)
  | advance (id : ℕ)

def advance (db : Db β) (id : ℕ) : Call β → Db β × Option (Call β)
  | .store c => advanceStore r sha256Hex db id c
  | .delete c => advanceDelete r db id c

def State.start (s : State β) (id : ℕ) (call : Call β) : State β :=
  match s.calls.lookup id with
  | some _ => s
  | none => { s with calls := s.calls.insert id call }

def setCall (calls : Assoc ℕ (Call β)) (id : ℕ) : Option (Call β) → Assoc ℕ (Call β)
  | none => calls.erase id
  | some call => calls.insert id call

def step (s : State β) : Event → State β
  | .startStore id kind key data size => s.start id (.store ⟨kind, key, data, size, .staging⟩)
  | .startDelete id key => s.start id (.delete ⟨key, .reading⟩)
  | .advance id =>
    match s.calls.lookup id with
    | none => s
    | some call =>
      let (db, next) := advance r sha256Hex s.db id call
      ⟨db, setCall s.calls id next⟩

end Steps

end BatleHub.StorageRouter.Traffic
