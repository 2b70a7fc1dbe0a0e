import BatleHub.Lib.Joins
import BatleHub.RouterTraffic

/-!
Which interleavings keep the bytes of every row. A transaction's locks keep what it read
until it commits, so the counts come out right where a commit replaces or removes the row
it believes to be there. Blobs and routing records are not under any lock: a delete whose
commit took the last row of a content away removes the blob later, which does no harm
where no store of that content finds or places it in between.
-/
namespace BatleHub.StorageRouter.Traffic

open Lib AssocMap

section Invariants
variable {β : Type} (r : Router β) (sha256Hex : Bytes → String)

/-- The tables as every commit leaves them. -/
structure TablesOk (t : Tables) : Prop where
  counts : ∀ hash, CountedAt t hash
  hashed : ∀ key hash, t.refs.lookup key = some hash → ∃ data, hash = sha256Hex data
  names : ∀ key row, t.storage.lookup key = some row → row.backendName = r.backendNameForKey key

/-- The row found at the start is another content's, locked, and still there. -/
def ExistingOk (db : Db β) (id : ℕ) (key hash : String) : Option String → Prop
  | none => True
  | some oldHash =>
    oldHash ≠ hash ∧ db.refLocks key = some id ∧ db.tables.refs.lookup key = some oldHash

/-- The row written for the hash is the committed one with one reference more. -/
def RowOk (db : Db β) (id : ℕ) (c : StoreCall) (row : IndexRow) : Prop :=
  db.indexLocks (sha256Hex c.data) = some id ∧
    row = upsertedRow db.tables (sha256Hex c.data) (contentKeyOf (sha256Hex c.data)) c.size

/-- What is left of a hash that loses a reference. -/
def releasedRow (row : IndexRow) : Option IndexRow :=
  if row.refCount - 1 ≤ 0 then none else some { row with refCount := row.refCount - 1 }

/-- The row of the hash is locked and its written version is `released`. -/
def ReleasedOk (db : Db β) (id : ℕ) (hash : String) (released : Option IndexRow) : Prop :=
  db.indexLocks hash = some id ∧
    ∃ row, db.tables.index.lookup hash = some row ∧ released = releasedRow row

structure PendingOk (db : Db β) (id : ℕ) (c : StoreCall) (p : Pending) : Prop where
  existing : ExistingOk db id c.key (sha256Hex c.data) p.existing
  refLock : db.refLocks c.key = some id
  row : RowOk sha256Hex db id c p.row
  released : ∀ oldHash, p.existing = some oldHash → ReleasedOk db id oldHash p.released

/-- The blob is on the backend of the key. -/
def Placed (db : Db β) (key hash : String) : Prop :=
  (db.objects (r.leafOf key) (contentKeyOf hash)).isSome = true

def StoreOk (db : Db β) (id : ℕ) (c : StoreCall) : Prop :=
  match c.phase with
  | .staging | .selecting | .reusing | .reuseDiscarding | .restoring | .recording => True
  | .upserting existing => ExistingOk db id c.key (sha256Hex c.data) existing
  | .mapping existing row =>
    ExistingOk db id c.key (sha256Hex c.data) existing ∧ RowOk sha256Hex db id c row
  | .releasing oldHash row =>
    ExistingOk db id c.key (sha256Hex c.data) (some oldHash) ∧ RowOk sha256Hex db id c row
  | .dropping oldHash row =>
    ExistingOk db id c.key (sha256Hex c.data) (some oldHash) ∧ RowOk sha256Hex db id c row ∧
      ReleasedOk db id oldHash none
  | .checking p | .placing p => PendingOk sha256Hex db id c p
  | .discarding p | .committing p =>
    PendingOk sha256Hex db id c p ∧ Placed r db c.key (sha256Hex c.data)

/-- The row the transaction deleted is locked and still there for others. -/
def RemovedOk (db : Db β) (id : ℕ) (key : String) (removed : Option String) : Prop :=
  ∀ hash, removed = some hash →
    db.refLocks key = some id ∧ db.tables.refs.lookup key = some hash

/-- The entry was read from tables in order. -/
def EntryOk (e : DedupEntry) : Prop := e.contentKey = contentKeyOf e.hash

def DeleteOk (db : Db β) (id : ℕ) (c : DeleteCall β) : Prop :=
  Logical c.key ∧
  match c.phase with
  | .reading | .legacy | .legacyDeleting _ | .forgetting => True
  | .removing e => EntryOk e
  | .releasing e removed => EntryOk e ∧ RemovedOk db id c.key removed
  | .dropping e removed => EntryOk e ∧ RemovedOk db id c.key removed ∧ ReleasedOk db id e.hash none
  | .committing e removed released =>
    EntryOk e ∧ RemovedOk db id c.key removed ∧ ReleasedOk db id e.hash released
  | .purging e => EntryOk e

def CallOk (db : Db β) (id : ℕ) : Call β → Prop
  | .store c => StoreOk r sha256Hex db id c
  | .delete c => DeleteOk db id c

/-- The blob a storing transaction relies on between finding or placing it and its commit. -/
def Relies (call : Call β) (key hash : String) : Prop :=
  match call with
  | .store c =>
    match c.phase with
    | .discarding _ | .committing _ => c.key = key ∧ sha256Hex c.data = hash
    | _ => False
  | .delete _ => False

end Invariants

section Frames
variable {β : Type} {r : Router β} {sha256Hex : Bytes → String} {db db' : Db β} {id other : ℕ}

/-- What a step of one call leaves to the transactions of the others. -/
structure Frame (db db' : Db β) (id : ℕ) : Prop where
  refLocks : ∀ key other, other ≠ id → db.refLocks key = some other →
    db'.refLocks key = some other
  indexLocks : ∀ hash other, other ≠ id → db.indexLocks hash = some other →
    db'.indexLocks hash = some other
  refs : ∀ key other, other ≠ id → db.refLocks key = some other →
    db'.tables.refs.lookup key = db.tables.refs.lookup key
  index : ∀ hash other, other ≠ id → db.indexLocks hash = some other →
    db'.tables.index.lookup hash = db.tables.index.lookup hash

theorem ExistingOk.frame (hframe : Frame db db' id) (hne : other ≠ id) {key hash : String}
    {existing : Option String} (h : ExistingOk db other key hash existing) :
    ExistingOk db' other key hash existing := by
  cases existing with
  | none => trivial
  | some oldHash =>
    obtain ⟨hother, hlock, hrow⟩ := h
    refine ⟨hother, hframe.refLocks key other hne hlock, ?_⟩
    rw [hframe.refs key other hne hlock]
    exact hrow

theorem RowOk.frame (hframe : Frame db db' id) (hne : other ≠ id) {c : StoreCall} {row : IndexRow}
    (h : RowOk sha256Hex db other c row) : RowOk sha256Hex db' other c row := by
  obtain ⟨hlock, hrow⟩ := h
  refine ⟨hframe.indexLocks _ other hne hlock, ?_⟩
  rw [hrow, upsertedRow, upsertedRow, hframe.index _ other hne hlock]

theorem ReleasedOk.frame (hframe : Frame db db' id) (hne : other ≠ id) {hash : String}
    {released : Option IndexRow} (h : ReleasedOk db other hash released) :
    ReleasedOk db' other hash released := by
  obtain ⟨hlock, hrow⟩ := h
  refine ⟨hframe.indexLocks _ other hne hlock, ?_⟩
  rw [hframe.index _ other hne hlock]
  exact hrow

theorem PendingOk.frame (hframe : Frame db db' id) (hne : other ≠ id) {c : StoreCall}
    {p : Pending} (h : PendingOk sha256Hex db other c p) : PendingOk sha256Hex db' other c p where
  existing := h.existing.frame hframe hne
  refLock := hframe.refLocks _ other hne h.refLock
  row := h.row.frame hframe hne
  released := fun oldHash hold => (h.released oldHash hold).frame hframe hne

theorem RemovedOk.frame (hframe : Frame db db' id) (hne : other ≠ id) {key : String}
    {removed : Option String} (h : RemovedOk db other key removed) :
    RemovedOk db' other key removed := by
  intro hash hremoved
  obtain ⟨hlock, hrow⟩ := h hash hremoved
  refine ⟨hframe.refLocks _ other hne hlock, ?_⟩
  rw [hframe.refs _ other hne hlock]
  exact hrow

/-- A call keeps what it knows through the steps of the others, as long as the blob it
relies on stays. -/
theorem CallOk.frame (hframe : Frame db db' id) (hne : other ≠ id) {call : Call β}
    (h : CallOk r sha256Hex db other call)
    (hplaced : ∀ key hash, Relies sha256Hex call key hash → Placed r db key hash →
      Placed r db' key hash) :
    CallOk r sha256Hex db' other call := by
  cases call with
  | delete c =>
    obtain ⟨hlogical, hphase⟩ := h
    refine ⟨hlogical, ?_⟩
    obtain ⟨key, phase⟩ := c
    cases phase with
    | reading => trivial
    | legacy => trivial
    | legacyDeleting leaf => trivial
    | removing e => exact hphase
    | releasing e removed => exact ⟨hphase.1, hphase.2.frame hframe hne⟩
    | dropping e removed =>
      exact ⟨hphase.1, hphase.2.1.frame hframe hne, hphase.2.2.frame hframe hne⟩
    | committing e removed released =>
      exact ⟨hphase.1, hphase.2.1.frame hframe hne, hphase.2.2.frame hframe hne⟩
    | purging e => exact hphase
    | forgetting => trivial
  | store c =>
    obtain ⟨kind, key, data, size, phase⟩ := c
    cases phase with
    | staging => trivial
    | selecting => trivial
    | reusing => trivial
    | reuseDiscarding => trivial
    | restoring => trivial
    | upserting existing => exact ExistingOk.frame hframe hne h
    | mapping existing row => exact ⟨h.1.frame hframe hne, h.2.frame hframe hne⟩
    | releasing oldHash row =>
      exact ⟨ExistingOk.frame hframe hne h.1, h.2.frame hframe hne⟩
    | dropping oldHash row =>
      exact ⟨ExistingOk.frame hframe hne h.1, h.2.1.frame hframe hne, h.2.2.frame hframe hne⟩
    | checking p => exact PendingOk.frame hframe hne h
    | placing p => exact PendingOk.frame hframe hne h
    | discarding p => exact ⟨h.1.frame hframe hne, hplaced key _ ⟨rfl, rfl⟩ h.2⟩
    | committing p => exact ⟨h.1.frame hframe hne, hplaced key _ ⟨rfl, rfl⟩ h.2⟩
    | recording => trivial

theorem Frame.refl (db : Db β) (id : ℕ) : Frame db db id :=
  ⟨fun _ _ _ h => h, fun _ _ _ h => h, fun _ _ _ _ => rfl, fun _ _ _ _ => rfl⟩

/-- Rows and locks stay; objects and routing records may change. -/
theorem Frame.of_same (id : ℕ) (hrefs : db'.tables.refs = db.tables.refs)
    (hindex : db'.tables.index = db.tables.index) (hrefLocks : db'.refLocks = db.refLocks)
    (hindexLocks : db'.indexLocks = db.indexLocks) : Frame db db' id where
  refLocks := fun _ _ _ h => by rw [hrefLocks]; exact h
  indexLocks := fun _ _ _ h => by rw [hindexLocks]; exact h
  refs := fun _ _ _ _ => by rw [hrefs]
  index := fun _ _ _ _ => by rw [hindex]

theorem lock_of_free {locks : String → Option ℕ} {row row' : String}
    (hfree : heldByOther locks row id = false) (hne : other ≠ id)
    (h : locks row' = some other) : lock locks row id row' = some other := by
  unfold lock
  by_cases hrow : row' = row
  · subst hrow
    exfalso
    simp [heldByOther, h, hne] at hfree
  · rw [Function.update_of_ne hrow]
    exact h

theorem Frame.lockRef {key : String} (hfree : heldByOther db.refLocks key id = false) :
    Frame db (db.lockRef key id) id where
  refLocks := fun _ _ hne h => lock_of_free hfree hne h
  indexLocks := fun _ _ _ h => h
  refs := fun _ _ _ _ => rfl
  index := fun _ _ _ _ => rfl

theorem Frame.lockIndex {hash : String} (hfree : heldByOther db.indexLocks hash id = false) :
    Frame db (db.lockIndex hash id) id where
  refLocks := fun _ _ _ h => h
  indexLocks := fun _ _ hne h => lock_of_free hfree hne h
  refs := fun _ _ _ _ => rfl
  index := fun _ _ _ _ => rfl

theorem unlock_of_other {locks : String → Option ℕ} {row : String} (hne : other ≠ id)
    (h : locks row = some other) : unlock locks id row = some other := by
  unfold unlock
  rw [if_neg]
  · exact h
  · rw [h]
    simpa using hne

/-- A rollback frees the call's own rows alone. -/
theorem Frame.unlockAll (db : Db β) (id : ℕ) : Frame db (db.unlockAll id) id where
  refLocks := fun _ _ hne h => unlock_of_other hne h
  indexLocks := fun _ _ hne h => unlock_of_other hne h
  refs := fun _ _ _ _ => rfl
  index := fun _ _ _ _ => rfl

/-- A commit changes rows that the call holds. -/
theorem Frame.commit {t : Tables}
    (hrefs : ∀ key, db.refLocks key ≠ some id → t.refs.lookup key = db.tables.refs.lookup key)
    (hindex : ∀ hash, db.indexLocks hash ≠ some id →
      t.index.lookup hash = db.tables.index.lookup hash) :
    Frame db ({ db with tables := t }.unlockAll id) id where
  refLocks := fun _ _ hne h => unlock_of_other hne h
  indexLocks := fun _ _ hne h => unlock_of_other hne h
  refs := by
    intro key other hne h
    apply hrefs
    rw [h]
    simpa using hne
  index := by
    intro hash other hne h
    apply hindex
    rw [h]
    simpa using hne

end Frames

section Blobs
variable {β : Type} [DecidableEq β] {sha256Hex : Bytes → String} {objs : Objects β} {leaf : β}
  {source : BlobSource}

/-- No blob is gone. -/
def BlobsKept (sha256Hex : Bytes → String) (objs objs' : Objects β) : Prop :=
  ∀ leaf data, (objs leaf (contentKeyOf (sha256Hex data))).isSome = true →
    (objs' leaf (contentKeyOf (sha256Hex data))).isSome = true

theorem BlobsKept.set_of_ne {key : String} (hkey : ∀ data, contentKeyOf (sha256Hex data) ≠ key)
    (value : Option Bytes) : BlobsKept sha256Hex objs (objs.set leaf key value) := by
  intro l data hsome
  rw [StorageRouter.set_of_ne _ _ (hkey data)]
  exact hsome

theorem BlobsKept.set_some (key : String) (data : Bytes) :
    BlobsKept sha256Hex objs (objs.set leaf key (some data)) := by
  intro l d hsome
  unfold Objects.set
  split
  · rfl
  · exact hsome

variable (hslash : ∀ data, '/' ∉ (sha256Hex data).toList)
include hslash

theorem ne_of_staging {key : String} (hkey : Staging key) (data : Bytes) :
    contentKeyOf (sha256Hex data) ≠ key := by
  intro heq
  exact not_staging_contentKeyOf (hslash data) (heq ▸ hkey)

omit hslash in
theorem staging_of_source {c : StoreCall} {id : ℕ} {stagingKey : String}
    (h : c.source id = .staged stagingKey) : Staging stagingKey := by
  unfold StoreCall.source at h
  split at h
  · cases h
  · obtain rfl := BlobSource.staged.inj h
    exact .inl ⟨_, rfl⟩
  · obtain rfl := BlobSource.staged.inj h
    right
    have hstrip : Texts.stripPrefix (STAGING_PREFIX ++ toString id ++ "/" ++ c.key)
        STAGING_PREFIX = some (toString id ++ "/" ++ c.key) := by
      rw [Texts.stripPrefix_eq_some_iff]
      simp only [String.append_assoc]
    have hsplit : Texts.splitOnce (toString id ++ "/" ++ c.key) '/' =
        some (toString id, c.key) := by
      refine (Texts.splitOnce_eq_some_iff _ _ _ _).mpr ⟨rfl, ?_⟩
      intro hmem
      have hdigit := Joins.isDigit_of_mem_toString hmem
      simp at hdigit
    simp only [stagedDestination, hstrip, hsplit, Option.bind_some, Option.map_some, Option.isSome_some]

theorem discardStaged_kept (c : StoreCall) (id : ℕ) :
    BlobsKept sha256Hex objs ((c.source id).discardStaged .ok objs leaf) := by
  cases hsource : c.source id with
  | inline d => exact fun _ _ h => h
  | staged stagingKey =>
    exact BlobsKept.set_of_ne (ne_of_staging hslash (staging_of_source hsource)) none

/-- Placing the blob keeps the others, and where it succeeds the blob is there. -/
theorem materialize_kept (c : StoreCall) (id : ℕ) {result : Except CoreError Unit}
    {objs' : Objects β} (data : Bytes)
    (h : (c.source id).materialize .ok objs leaf (contentKeyOf (sha256Hex data)) = (result, objs')) :
    BlobsKept sha256Hex objs objs' ∧ (result = .ok () →
      (objs' leaf (contentKeyOf (sha256Hex data))).isSome = true) := by
  cases hsource : c.source id with
  | inline d =>
    rw [hsource] at h
    obtain ⟨-, rfl⟩ := Prod.mk.inj h
    refine ⟨BlobsKept.set_some _ d, fun _ => ?_⟩
    rw [set_self]
    rfl
  | staged stagingKey =>
    have hne := ne_of_staging hslash (staging_of_source hsource)
    rw [hsource] at h
    simp only [BlobSource.materialize, leafMove] at h
    split at h
    · obtain ⟨rfl, rfl⟩ := Prod.mk.inj h
      exact ⟨fun _ _ hsome => hsome, fun hok => by cases hok⟩
    · rename_i staged _
      obtain ⟨-, rfl⟩ := Prod.mk.inj h
      constructor
      · intro l d hsome
        exact BlobsKept.set_of_ne hne none l d (BlobsKept.set_some _ staged l d hsome)
      · intro _
        rw [StorageRouter.set_of_ne _ _ (hne data), set_self]
        rfl

end Blobs

section Advances
variable {β : Type} [DecidableEq β] (r : Router β) (sha256Hex : Bytes → String)

/-- No row has its blob there, and no transaction relies on one there. -/
def NotNeeded (s : State β) (leaf : β) (contentKey : String) : Prop :=
  (∀ key hash, s.db.tables.refs.lookup key = some hash → r.leafOf key = leaf →
    contentKeyOf hash ≠ contentKey) ∧
  ∀ id call key hash, s.calls.lookup id = some call → Relies sha256Hex call key hash →
    r.leafOf key = leaf → contentKeyOf hash ≠ contentKey

/-- A store of the key that has committed and has yet to record its backend. -/
def Recording (calls : Assoc ℕ (Call β)) (key : String) : Prop :=
  ∃ id c, calls.lookup id = some (.store c) ∧ c.key = key ∧ c.phase = .recording

/-- A delete that has committed and has yet to remove the blob. -/
def Call.purges (leaf : β) (contentKey : String) : Call β → Bool
  | .delete ⟨_, .purging e⟩ =>
    decide (r.resolveBackend e.backendName = leaf) && decide (e.contentKey = contentKey)
  | _ => false

/-- The delete has found no row of its key, or has removed it. -/
def DeletePhase.pastRow : DeletePhase β → Bool
  | .legacy | .legacyDeleting _ | .purging _ | .forgetting => true
  | _ => false

/-- A delete of the key that has yet to remove its routing record. -/
def Call.forgets (key : String) : Call β → Bool
  | .delete c => decide (c.key = key) && c.phase.pastRow
  | _ => false

def Any (p : Call β → Bool) (calls : Assoc ℕ (Call β)) : Prop :=
  ∃ id call, calls.lookup id = some call ∧ p call = true

instance (p : Call β → Bool) (calls : Assoc ℕ (Call β)) : Decidable (Any p calls) :=
  inferInstanceAs (Decidable (∃ id call, calls.lookup id = some call ∧ p call = true))

/-- The store goes on with the blob it finds, or places it. -/
def Reaches (db : Db β) (c : StoreCall) : Prop :=
  match c.phase with
  | .checking p => 1 < p.row.refCount ∧
      leafExists .ok db.objects (r.leafOf c.key) (contentKeyOf (sha256Hex c.data)) = true
  | .placing _ => True
  | _ => False

/-- The step of the call does no harm: a commit finds the row it believes to replace or to
remove; no store finds or places a blob that a delete is about to remove; and none records
its backend while a delete of the key is about to forget it. -/
def Harmless (s : State β) : Call β → Prop
  | .store c =>
    match c.phase with
    | .checking p => 1 < p.row.refCount →
        leafExists .ok s.db.objects (r.leafOf c.key) (contentKeyOf (sha256Hex c.data)) = true →
        ¬ Any (Call.purges r (r.leafOf c.key) (contentKeyOf (sha256Hex c.data))) s.calls
    | .placing _ =>
      ¬ Any (Call.purges r (r.leafOf c.key) (contentKeyOf (sha256Hex c.data))) s.calls
    | .committing p => s.db.tables.refs.lookup c.key = p.existing
    | .recording => r.leafOf c.key = r.defaultLeaf ∨ ¬ Any (Call.forgets c.key) s.calls
    | _ => True
  | .delete c =>
    match c.phase with
    | .committing e removed _ => removed = some e.hash
    | _ => True

instance decidableHarmless (s : State β) : (call : Call β) → Decidable (Harmless r sha256Hex s call)
  | .store ⟨_, _, _, _, .checking _⟩ => inferInstanceAs (Decidable (_ → _ → ¬ _))
  | .store ⟨_, _, _, _, .placing _⟩ => inferInstanceAs (Decidable (¬ _))
  | .store ⟨_, _, _, _, .committing _⟩ => inferInstanceAs (Decidable (_ = _))
  | .store ⟨_, _, _, _, .recording⟩ => inferInstanceAs (Decidable (_ = _ ∨ ¬ _))
  | .store ⟨_, _, _, _, .staging⟩ | .store ⟨_, _, _, _, .selecting⟩
  | .store ⟨_, _, _, _, .reusing⟩ | .store ⟨_, _, _, _, .reuseDiscarding⟩
  | .store ⟨_, _, _, _, .restoring⟩ | .store ⟨_, _, _, _, .upserting _⟩
  | .store ⟨_, _, _, _, .mapping _ _⟩ | .store ⟨_, _, _, _, .releasing _ _⟩
  | .store ⟨_, _, _, _, .dropping _ _⟩ | .store ⟨_, _, _, _, .discarding _⟩ => .isTrue trivial
  | .delete ⟨_, .committing _ _ _⟩ => inferInstanceAs (Decidable (_ = _))
  | .delete ⟨_, .reading⟩ | .delete ⟨_, .legacy⟩ | .delete ⟨_, .legacyDeleting _⟩
  | .delete ⟨_, .removing _⟩ | .delete ⟨_, .releasing _ _⟩ | .delete ⟨_, .dropping _ _⟩
  | .delete ⟨_, .purging _⟩ | .delete ⟨_, .forgetting⟩ => .isTrue trivial

/-- The part of the condition that a call's own commit needs. -/
def CommitOk (db : Db β) : Call β → Prop
  | .store c =>
    match c.phase with
    | .committing p => db.tables.refs.lookup c.key = p.existing
    | _ => True
  | .delete c =>
    match c.phase with
    | .committing e removed _ => removed = some e.hash
    | _ => True

/-- Everything a step of a call does. -/
structure Advanced (db db' : Db β) (id : ℕ) (call : Call β) (next : Option (Call β)) : Prop where
  tables : TablesOk r sha256Hex db'.tables
  frame : Frame db db' id
  own : ∀ call', next = some call' → CallOk r sha256Hex db' id call'
  rows : ∀ key hash, db'.tables.refs.lookup key = some hash →
    db.tables.refs.lookup key = some hash ∨
      (Relies sha256Hex call key hash ∧
        ∃ c, next = some (.store c) ∧ c.key = key ∧ c.phase = .recording)
  objects : ∀ key data, Placed r db key (sha256Hex data) →
    Placed r db' key (sha256Hex data) ∨
      ∃ c e, call = .delete c ∧ c.phase = .purging e ∧
        r.leafOf key = r.resolveBackend e.backendName ∧
        contentKeyOf (sha256Hex data) = e.contentKey
  storage : ∀ key, (db.tables.storage.lookup key).isSome = true →
    (db'.tables.storage.lookup key).isSome = true ∨
      ∃ c, call = .delete c ∧ c.key = key ∧ c.phase = .forgetting
  recorded : ∀ c, call = .store c → c.phase = .recording →
    (db'.tables.storage.lookup c.key).isSome = true

variable {r sha256Hex} {db db' : Db β} {id : ℕ} {call : Call β} {next : Option (Call β)}

omit [DecidableEq β] in
/-- A step that commits nothing. -/
theorem Advanced.of_tables (hok : TablesOk r sha256Hex db.tables)
    (htables : db'.tables = db.tables) (hframe : Frame db db' id)
    (hobjects : BlobsKept sha256Hex db.objects db'.objects)
    (hrecording : ∀ c, call = .store c → c.phase ≠ .recording)
    (hown : ∀ call', next = some call' → CallOk r sha256Hex db' id call') :
    Advanced r sha256Hex db db' id call next where
  tables := by
    rw [htables]
    exact hok
  frame := hframe
  own := hown
  rows := by
    intro key hash h
    rw [htables] at h
    exact .inl h
  objects := fun key data h => .inl (hobjects _ data h)
  storage := by
    intro key h
    rw [htables]
    exact .inl h
  recorded := fun c hc hphase => absurd hphase (hrecording c hc)

end Advances

section Commits
variable {t : Tables} {key hash : String}

theorem upsertIndex_eq (t : Tables) (hash contentKey : String) (size : Option ℕ) :
    t.upsertIndex hash contentKey size =
      ((upsertedRow t hash contentKey size).refCount,
        { t with index := t.index.insert hash (upsertedRow t hash contentKey size) }) := by
  unfold Tables.upsertIndex upsertedRow
  cases t.index.lookup hash <;> rfl

/-- Where it does not fail, releasing a hash leaves its row as `releasedRow` says. -/
theorem releaseHash_eq {row : IndexRow} (hrow : t.index.lookup hash = some row) {count : ℤ}
    {t' : Tables} (h : t.releaseHash hash = .ok (count, t')) :
    t' = { t with index :=
      match releasedRow row with
      | none => t.index.erase hash
      | some row => t.index.insert hash row } := by
  simp only [Tables.releaseHash, hrow] at h
  unfold releasedRow
  split at h
  · rename_i hlast
    split at h
    · cases h
    · rw [if_pos hlast, ← (Prod.mk.inj (Except.ok.inj h)).2]
  · rename_i hmore
    rw [if_neg hmore, ← (Prod.mk.inj (Except.ok.inj h)).2]

/-- The commit of a store is what its statements would do at once. -/
theorem commit_spec (key : String) {p : Pending} {size : Option ℕ} (hcounts : ∀ v, CountedAt t v)
    (hrow : p.row = upsertedRow t hash (contentKeyOf hash) size)
    (hexisting : t.refs.lookup key = p.existing)
    (hold : ∀ oldHash, p.existing = some oldHash → oldHash ≠ hash ∧
      ∃ row, t.index.lookup oldHash = some row ∧ p.released = releasedRow row)
    (hnew : p.existing ≠ some hash) :
    (p.commit t key hash).refs = t.refs.insert key hash ∧
      (p.commit t key hash).storage = t.storage ∧ ∀ v, CountedAt (p.commit t key hash) v := by
  obtain ⟨t', hnewHash, hrefs, hstorage, hcounts'⟩ :=
    newHashTables_spec hcounts key hash size (by rw [hexisting]; exact hnew)
  suffices hsame : p.commit t key hash = t' by
    rw [hsame]
    exact ⟨hrefs, hstorage, hcounts'⟩
  simp only [newHashTables, upsertIndex_eq, Tables.upsertRef, hexisting] at hnewHash
  unfold Pending.commit
  cases hp : p.existing with
  | none =>
    rw [hp] at hnewHash
    rw [← (Prod.mk.inj (Except.ok.inj hnewHash)).2, hrow]
  | some oldHash =>
    obtain ⟨hne, row, hlookup, hreleased⟩ := hold oldHash hp
    rw [hp] at hnewHash
    simp only at hnewHash
    split at hnewHash
    · cases hnewHash
    · rename_i count t₂ hrelease
      have hkept : (t.index.insert hash
          (upsertedRow t hash (contentKeyOf hash) size)).lookup oldHash = some row := by
        rw [lookup_insert_eq, if_neg hne]
        exact hlookup
      have ht₂ := releaseHash_eq hkept hrelease
      have hcommitted := (Prod.mk.inj (Except.ok.inj hnewHash)).2
      subst hcommitted
      cases hrow' : releasedRow row <;> simp only [ht₂, hreleased, hrow, hrow']

theorem commitDelete_spec {e : DedupEntry} {row : IndexRow} (hcounts : ∀ v, CountedAt t v)
    (hrefs : t.refs.lookup key = some e.hash) (hrow : t.index.lookup e.hash = some row) :
    (commitDelete t key e (some e.hash) (releasedRow row)).refs = t.refs.erase key ∧
      (commitDelete t key e (some e.hash) (releasedRow row)).storage = t.storage ∧
      ∀ v, CountedAt (commitDelete t key e (some e.hash) (releasedRow row)) v := by
  obtain ⟨t', hrelease, hrefs', hstorage, hcounts'⟩ := deleteRef_spec hcounts hrefs
  suffices hsame : commitDelete t key e (some e.hash) (releasedRow row) = t' by
    rw [hsame]
    exact ⟨hrefs', hstorage, hcounts'⟩
  have ht' := releaseHash_eq (t := t.deleteRef key) hrow hrelease
  rw [ht']
  unfold commitDelete Tables.deleteRef
  cases releasedRow row <;> rfl

end Commits

section Stores
variable {β : Type} [DecidableEq β] {r : Router β} {sha256Hex : Bytes → String} {db : Db β} {id : ℕ}

theorem lock_own {locks : String → Option ℕ} {row row' : String} (h : locks row' = some id) :
    lock locks row id row' = some id := by
  unfold lock
  by_cases hrow : row' = row
  · subst hrow
    rw [Function.update_self]
  · rw [Function.update_of_ne hrow]
    exact h

omit [DecidableEq β] in
theorem RowOk.lockRef {c : StoreCall} {row : IndexRow} (h : RowOk sha256Hex db id c row)
    (key : String) : RowOk sha256Hex (db.lockRef key id) id c row := h

omit [DecidableEq β] in
theorem ExistingOk.lockRef {key hash : String} {existing : Option String}
    (h : ExistingOk db id key hash existing) (key' : String) :
    ExistingOk (db.lockRef key' id) id key hash existing := by
  cases existing with
  | none => trivial
  | some oldHash => exact ⟨h.1, lock_own h.2.1, h.2.2⟩

omit [DecidableEq β] in
theorem ExistingOk.lockIndex {key hash : String} {existing : Option String}
    (h : ExistingOk db id key hash existing) (hash' : String) :
    ExistingOk (db.lockIndex hash' id) id key hash existing := by
  cases existing with
  | none => trivial
  | some oldHash => exact h

omit [DecidableEq β] in
theorem RowOk.lockIndex {c : StoreCall} {row : IndexRow} (h : RowOk sha256Hex db id c row)
    (hash : String) : RowOk sha256Hex (db.lockIndex hash id) id c row :=
  ⟨lock_own h.1, h.2⟩

omit [DecidableEq β] in
theorem ReleasedOk.of_lockIndex (id : ℕ) {hash : String} {row : IndexRow}
    (hrow : db.tables.index.lookup hash = some row) :
    ReleasedOk (db.lockIndex hash id) id hash (releasedRow row) :=
  ⟨Function.update_self _ _ _, row, hrow, rfl⟩

variable (hslash : ∀ data, '/' ∉ (sha256Hex data).toList)
include hslash

theorem abortStore_spec (hok : TablesOk r sha256Hex db.tables) (id : ℕ) (c : StoreCall)
    (objs : Objects β)
    (hkept : BlobsKept sha256Hex db.objects objs) (hphase : c.phase ≠ .recording) :
    Advanced r sha256Hex db (abortStore r { db with objects := objs } id c).1 id (.store c)
      (abortStore r { db with objects := objs } id c).2 := by
  refine Advanced.of_tables hok rfl ?_ ?_ ?_ ?_
  · exact ⟨fun _ _ hne h => unlock_of_other hne h, fun _ _ hne h => unlock_of_other hne h,
      fun _ _ _ _ => rfl, fun _ _ _ _ => rfl⟩
  · intro leaf data hsome
    exact discardStaged_kept hslash c id leaf data (hkept leaf data hsome)
  · intro c' hc'
    rw [← Call.store.inj hc']
    exact hphase
  · intro call' hnext
    cases hnext

omit hslash in
/-- A store's commit writes its reference under the locks it holds. -/
theorem committingStore_spec (hok : TablesOk r sha256Hex db.tables) (kind : StoreKind)
    (key : String) (data : Bytes) (size : Option ℕ) (p : Pending)
    (h : StoreOk r sha256Hex db id ⟨kind, key, data, size, .committing p⟩)
    (hcommit : CommitOk db (.store ⟨kind, key, data, size, .committing p⟩)) :
    Advanced r sha256Hex db
      (advanceStore r sha256Hex db id ⟨kind, key, data, size, .committing p⟩).1 id
      (.store ⟨kind, key, data, size, .committing p⟩)
      (advanceStore r sha256Hex db id ⟨kind, key, data, size, .committing p⟩).2 := by
  obtain ⟨hpending, hplaced⟩ := h
  have hexisting : db.tables.refs.lookup key = p.existing := hcommit
  have hother : ∀ oldHash, p.existing = some oldHash → oldHash ≠ sha256Hex data := by
    intro oldHash hold
    have hexistingOk := hpending.existing
    rw [hold] at hexistingOk
    exact hexistingOk.1
  obtain ⟨hrefs, hstorage, hcounts⟩ := commit_spec key hok.counts hpending.row.2
    hexisting (fun oldHash hold => ⟨hother oldHash hold, (hpending.released oldHash hold).2⟩)
    (fun hold => hother _ hold rfl)
  refine ⟨⟨hcounts, ?_, ?_⟩, Frame.commit ?_ ?_, ?_, ?_, fun _ _ hsome => .inl hsome, ?_, ?_⟩
  · intro k v hlookup
    simp only [advanceStore, Db.unlockAll, hrefs, lookup_insert_eq] at hlookup
    split at hlookup
    · exact ⟨data, (Option.some.inj hlookup).symm⟩
    · exact hok.hashed k v hlookup
  · intro k row hlookup
    simp only [advanceStore, Db.unlockAll, hstorage] at hlookup
    exact hok.names k row hlookup
  · intro k hk
    have hne : k ≠ key := by
      intro heq
      exact hk (heq ▸ hpending.refLock)
    rw [hrefs, lookup_insert_eq, if_neg hne]
  · intro v hv
    have hne : v ≠ sha256Hex data := by
      intro heq
      exact hv (heq ▸ hpending.row.1)
    unfold Pending.commit
    cases hp : p.existing with
    | none => simp [hne]
    | some oldHash =>
      have hneOld : v ≠ oldHash := by
        intro heq
        exact hv (heq ▸ (hpending.released oldHash hp).1)
      cases p.released with
      | none => simp [hne, hneOld]
      | some row => simp [hne, hneOld]
  · intro call' hnext
    rw [← Option.some.inj hnext]
    trivial
  · intro k v hlookup
    simp only [advanceStore, Db.unlockAll, hrefs, lookup_insert_eq] at hlookup
    split at hlookup
    · rename_i hk
      refine .inr ⟨⟨hk.symm, Option.some.inj hlookup⟩, _, rfl, hk.symm, rfl⟩
    · exact .inl hlookup
  · intro k hsome
    simp only [advanceStore, Db.unlockAll, hstorage]
    exact .inl hsome
  · intro c' hc' hphase
    rw [← Call.store.inj hc'] at hphase
    cases hphase

omit hslash in
/-- The backend's name is recorded after the commit. -/
theorem recordingStore_spec (hok : TablesOk r sha256Hex db.tables) (kind : StoreKind)
    (key : String) (data : Bytes) (size : Option ℕ) :
    Advanced r sha256Hex db
      (advanceStore r sha256Hex db id ⟨kind, key, data, size, .recording⟩).1 id
      (.store ⟨kind, key, data, size, .recording⟩)
      (advanceStore r sha256Hex db id ⟨kind, key, data, size, .recording⟩).2 := by
  refine ⟨⟨hok.counts, hok.hashed, ?_⟩, Frame.of_same id rfl rfl rfl rfl, ?_,
    fun _ _ hlookup => .inl hlookup, fun _ _ hsome => .inl hsome, ?_, ?_⟩
  · intro k row hlookup
    simp only [advanceStore, Tables.recordBackend, lookup_insert_eq] at hlookup
    split at hlookup
    · rename_i hk
      rw [hk, ← Option.some.inj hlookup]
    · exact hok.names k row hlookup
  · intro call' hnext
    cases hnext
  · intro k hsome
    left
    simp only [advanceStore, Tables.recordBackend, lookup_insert_eq]
    split
    · rfl
    · exact hsome
  · intro c' hc' _
    rw [← Call.store.inj hc']
    simp [advanceStore, Tables.recordBackend]

/-- Every phase of a store. -/
theorem advanceStore_spec (hok : TablesOk r sha256Hex db.tables) (c : StoreCall)
    (h : StoreOk r sha256Hex db id c) (hcommit : CommitOk db (.store c)) :
    Advanced r sha256Hex db (advanceStore r sha256Hex db id c).1 id (.store c)
      (advanceStore r sha256Hex db id c).2 := by
  obtain ⟨kind, key, data, size, phase⟩ := c
  have habort := fun {objs : Objects β} => abortStore_spec hslash hok id
    ⟨kind, key, data, size, phase⟩ objs
  -- a step that commits nothing: its own phase is not the last one
  have hquiet : ∀ {db' : Db β} {phase' : StorePhase}, phase ≠ .recording →
      db'.tables = db.tables → Frame db db' id → BlobsKept sha256Hex db.objects db'.objects →
      StoreOk r sha256Hex db' id ⟨kind, key, data, size, phase'⟩ →
      Advanced r sha256Hex db db' id (.store ⟨kind, key, data, size, phase⟩)
        (some (.store ⟨kind, key, data, size, phase'⟩)) := by
    intro db' phase' hphase htables hframe hkept hown
    refine Advanced.of_tables hok htables hframe hkept ?_ ?_
    · intro c' hc'
      rw [← Call.store.inj hc']
      exact hphase
    · intro call' hnext
      rw [← Option.some.inj hnext]
      exact hown
  have hsame : BlobsKept sha256Hex db.objects db.objects := fun _ _ hsome => hsome
  cases phase with
  | staging =>
    simp only [advanceStore]
    split
    · exact hquiet (by simp) rfl (Frame.refl db id) hsame trivial
    · rename_i stagingKey hsource
      refine hquiet (by simp) rfl ?_ ?_ trivial
      · exact Frame.of_same id rfl rfl rfl rfl
      · exact BlobsKept.set_of_ne (ne_of_staging hslash (staging_of_source hsource)) _
  | selecting =>
    simp only [advanceStore]
    split
    · exact hquiet (by simp) rfl (Frame.refl db id) hsame trivial
    · rename_i existing hrow
      split
      · exact hquiet (by simp) rfl (Frame.refl db id) hsame trivial
      · rename_i hfree
        split
        · exact hquiet (by simp) rfl (Frame.refl db id) hsame trivial
        · rename_i hne
          refine hquiet (by simp) rfl (Frame.lockRef (by simpa using hfree)) hsame ?_
          exact ⟨hne, Function.update_self _ _ _, hrow⟩
  | reusing =>
    simp only [advanceStore]
    split
    · exact hquiet (by simp) rfl (Frame.refl db id) hsame trivial
    · exact hquiet (by simp) rfl (Frame.refl db id) hsame trivial
  | reuseDiscarding =>
    refine hquiet (by simp) rfl ?_ ?_ trivial
    · exact Frame.of_same id rfl rfl rfl rfl
    · exact discardStaged_kept hslash _ id
  | restoring =>
    simp only [advanceStore]
    split
    · rename_i e objs hmat
      exact habort (materialize_kept hslash _ id data hmat).1 (by simp)
    · rename_i objs hmat
      refine hquiet (by simp) rfl ?_ (materialize_kept hslash _ id data hmat).1 trivial
      exact Frame.of_same id rfl rfl rfl rfl
  | upserting existing =>
    simp only [advanceStore]
    split
    · exact hquiet (by simp) rfl (Frame.refl db id) hsame h
    · rename_i hfree
      refine hquiet (by simp) rfl (Frame.lockIndex (by simpa using hfree)) hsame ?_
      exact ⟨ExistingOk.lockIndex h _, Function.update_self _ _ _, rfl⟩
  | mapping existing row =>
    simp only [advanceStore]
    split
    · exact hquiet (by simp) rfl (Frame.refl db id) hsame h
    · rename_i hfree
      have hframe : Frame db (db.lockRef key id) id := Frame.lockRef (by simpa using hfree)
      cases existing with
      | none =>
        refine hquiet (by simp) rfl hframe hsame ?_
        exact ⟨trivial, Function.update_self _ _ _, h.2.lockRef _, fun _ hold => by cases hold⟩
      | some oldHash =>
        exact hquiet (by simp) rfl hframe hsame ⟨ExistingOk.lockRef h.1 _, h.2.lockRef _⟩
  | releasing oldHash row =>
    simp only [advanceStore]
    split
    · exact habort hsame (by simp)
    · rename_i oldRow hlookup
      split
      · exact hquiet (by simp) rfl (Frame.refl db id) hsame h
      · rename_i hfree
        have hframe : Frame db (db.lockIndex oldHash id) id :=
          Frame.lockIndex (by simpa using hfree)
        have hexisting := ExistingOk.lockIndex h.1 oldHash
        have hrow := h.2.lockIndex oldHash
        have hreleased := ReleasedOk.of_lockIndex id hlookup
        split
        · rename_i hlast
          rw [releasedRow, if_pos hlast] at hreleased
          exact hquiet (by simp) rfl hframe hsame ⟨hexisting, hrow, hreleased⟩
        · rename_i hmore
          rw [releasedRow, if_neg hmore] at hreleased
          refine hquiet (by simp) rfl hframe hsame ⟨hexisting, hexisting.2.1, hrow, ?_⟩
          intro oldHash' hold
          rw [← Option.some.inj hold]
          exact hreleased
  | dropping oldHash row =>
    simp only [advanceStore]
    split
    · exact hquiet (by simp) rfl (Frame.refl db id) hsame h
    · split
      · exact habort hsame (by simp)
      · refine hquiet (by simp) rfl (Frame.refl db id) hsame ⟨h.1, h.1.2.1, h.2.1, ?_⟩
        intro oldHash' hold
        rw [← Option.some.inj hold]
        exact h.2.2
  | checking p =>
    simp only [advanceStore]
    split
    · rename_i hfound
      rw [Bool.and_eq_true] at hfound
      exact hquiet (by simp) rfl (Frame.refl db id) hsame
        ⟨⟨h.existing, h.refLock, h.row, h.released⟩, hfound.2⟩
    · exact hquiet (by simp) rfl (Frame.refl db id) hsame
        ⟨h.existing, h.refLock, h.row, h.released⟩
  | placing p =>
    simp only [advanceStore]
    split
    · rename_i e objs hmat
      exact habort (materialize_kept hslash _ id data hmat).1 (by simp)
    · rename_i objs hmat
      obtain ⟨hkept, hplaced⟩ := materialize_kept hslash _ id data hmat
      refine hquiet (by simp) rfl (Frame.of_same id rfl rfl rfl rfl) hkept ?_
      exact ⟨⟨h.existing, h.refLock, h.row, h.released⟩, hplaced rfl⟩
  | discarding p =>
    have hkept : BlobsKept sha256Hex db.objects
        ((StoreCall.source ⟨kind, key, data, size, .discarding p⟩ id).discardStaged .ok db.objects
          (r.leafOf key)) := discardStaged_kept hslash _ id
    refine hquiet (by simp) rfl (Frame.of_same id rfl rfl rfl rfl) hkept ?_
    exact ⟨⟨h.1.existing, h.1.refLock, h.1.row, h.1.released⟩, hkept _ _ h.2⟩
  | committing p => exact committingStore_spec hok kind key data size p h hcommit
  | recording => exact recordingStore_spec hok kind key data size

end Stores

section Deletes
variable {β : Type} [DecidableEq β] {r : Router β} {sha256Hex : Bytes → String} {db : Db β} {id : ℕ}

omit [DecidableEq β] in
theorem RemovedOk.lockIndex {key : String} {removed : Option String}
    (h : RemovedOk db id key removed) (hash : String) :
    RemovedOk (db.lockIndex hash id) id key removed := h

/-- A delete's commit takes its reference away under the locks it holds. -/
theorem committingDelete_spec (hok : TablesOk r sha256Hex db.tables) (key : String)
    (e : DedupEntry) (removed : Option String) (released : Option IndexRow)
    (h : DeleteOk db id ⟨key, .committing e removed released⟩)
    (hcommit : CommitOk db (.delete ⟨key, .committing e removed released⟩)) :
    Advanced r sha256Hex db (advanceDelete r db id ⟨key, .committing e removed released⟩).1 id
      (.delete ⟨key, .committing e removed released⟩)
      (advanceDelete r db id ⟨key, .committing e removed released⟩).2 := by
  obtain ⟨hlogical, h⟩ := h
  obtain ⟨hentry, hremoved, hlock, row, hindex, rfl⟩ := h
  obtain rfl : removed = some e.hash := hcommit
  obtain ⟨hrefLock, hrow⟩ := hremoved e.hash rfl
  obtain ⟨hrefs, hstorage, hcounts⟩ := commitDelete_spec hok.counts hrow hindex
  refine ⟨⟨hcounts, ?_, ?_⟩, Frame.commit ?_ ?_, ?_, ?_, fun _ _ hsome => .inl hsome, ?_, ?_⟩
  · intro k v hlookup
    simp only [advanceDelete, Db.unlockAll, hrefs, lookup_erase_eq] at hlookup
    split at hlookup
    · cases hlookup
    · exact hok.hashed k v hlookup
  · intro k row' hlookup
    simp only [advanceDelete, Db.unlockAll, hstorage] at hlookup
    exact hok.names k row' hlookup
  · intro k hk
    have hne : k ≠ key := by
      intro heq
      exact hk (heq ▸ hrefLock)
    rw [hrefs, lookup_erase_eq, if_neg hne]
  · intro v hv
    have hne : v ≠ e.hash := by
      intro heq
      exact hv (heq ▸ hlock)
    unfold commitDelete
    cases releasedRow row with
    | none => simp [hne]
    | some row' => simp [hne]
  · intro call' hnext
    simp only [advanceDelete] at hnext
    split at hnext
    · rw [← Option.some.inj hnext]
      exact ⟨hlogical, hentry⟩
    · rw [← Option.some.inj hnext]
      exact ⟨hlogical, trivial⟩
  · intro k v hlookup
    simp only [advanceDelete, Db.unlockAll, hrefs, lookup_erase_eq] at hlookup
    split at hlookup
    · cases hlookup
    · exact .inl hlookup
  · intro k hsome
    simp only [advanceDelete, Db.unlockAll, hstorage]
    exact .inl hsome
  · intro c' hc'
    cases hc'

/-- The bytes go at the backend where they were found. -/
theorem purgingDelete_spec (hok : TablesOk r sha256Hex db.tables) (key : String) (e : DedupEntry)
    (hlogical : Logical key) :
    Advanced r sha256Hex db (advanceDelete r db id ⟨key, .purging e⟩).1 id (.delete ⟨key, .purging e⟩)
      (advanceDelete r db id ⟨key, .purging e⟩).2 := by
  refine ⟨hok, Frame.of_same id rfl rfl rfl rfl, ?_, fun _ _ hlookup => .inl hlookup, ?_,
    fun _ hsome => .inl hsome, ?_⟩
  · intro call' hnext
    rw [← Option.some.inj hnext]
    exact ⟨hlogical, trivial⟩
  · intro k data hplaced
    by_cases hhit : r.leafOf k = r.resolveBackend e.backendName ∧
        contentKeyOf (sha256Hex data) = e.contentKey
    · exact .inr ⟨_, e, rfl, rfl, hhit⟩
    · left
      show (db.objects.set (r.resolveBackend e.backendName) e.contentKey none (r.leafOf k)
        (contentKeyOf (sha256Hex data))).isSome = true
      unfold Objects.set
      rw [if_neg hhit]
      exact hplaced
  · intro c' hc'
    cases hc'

/-- The backend's name is forgotten last. -/
theorem forgettingDelete_spec (hok : TablesOk r sha256Hex db.tables) (key : String) :
    Advanced r sha256Hex db (advanceDelete r db id ⟨key, .forgetting⟩).1 id (.delete ⟨key, .forgetting⟩)
      (advanceDelete r db id ⟨key, .forgetting⟩).2 := by
  refine ⟨⟨hok.counts, hok.hashed, ?_⟩, Frame.of_same id rfl rfl rfl rfl, ?_,
    fun _ _ hlookup => .inl hlookup, fun _ _ hsome => .inl hsome, ?_, ?_⟩
  · intro k row hlookup
    simp only [advanceDelete, Tables.forgetBackend, lookup_erase_eq] at hlookup
    split at hlookup
    · cases hlookup
    · exact hok.names k row hlookup
  · intro call' hnext
    cases hnext
  · intro k hsome
    by_cases hk : k = key
    · exact .inr ⟨_, rfl, hk.symm, rfl⟩
    · left
      simp only [advanceDelete, Tables.forgetBackend, lookup_erase_eq, if_neg hk]
      exact hsome
  · intro c' hc'
    cases hc'

/-- Every phase of a delete. -/
theorem advanceDelete_spec (hok : TablesOk r sha256Hex db.tables) (c : DeleteCall β)
    (h : DeleteOk db id c) (hcommit : CommitOk db (.delete c)) :
    Advanced r sha256Hex db (advanceDelete r db id c).1 id (.delete c)
      (advanceDelete r db id c).2 := by
  obtain ⟨key, phase⟩ := c
  obtain ⟨hlogical, h⟩ := h
  have hquiet : ∀ {db' : Db β} {phase' : DeletePhase β}, db'.tables = db.tables →
      Frame db db' id → BlobsKept sha256Hex db.objects db'.objects →
      DeleteOk db' id ⟨key, phase'⟩ →
      Advanced r sha256Hex db db' id (.delete ⟨key, phase⟩) (some (.delete ⟨key, phase'⟩)) := by
    intro db' phase' htables hframe hkept hown
    refine Advanced.of_tables hok htables hframe hkept ?_ ?_
    · intro c' hc'
      cases hc'
    · intro call' hnext
      rw [← Option.some.inj hnext]
      exact hown
  have hsame : BlobsKept sha256Hex db.objects db.objects := fun _ _ hsome => hsome
  have habort : Advanced r sha256Hex db (db.unlockAll id) id (.delete ⟨key, phase⟩) none := by
    refine Advanced.of_tables hok rfl (Frame.unlockAll db id) hsame ?_ ?_
    · intro c' hc'
      cases hc'
    · intro call' hnext
      cases hnext
  cases phase with
  | reading =>
    simp only [advanceDelete]
    split
    · exact hquiet rfl (Frame.refl db id) hsame ⟨hlogical, trivial⟩
    · rename_i hash contentKey backendName hrow
      refine hquiet rfl (Frame.refl db id) hsame ⟨hlogical, ?_⟩
      simp only [Tables.dedupRow, Option.bind_eq_bind, Option.bind_eq_some_iff,
        Option.some.injEq, Prod.mk.injEq] at hrow
      obtain ⟨v, hlookup, row, hindex, rfl, rfl, -⟩ := hrow
      obtain ⟨row', hindex', hkey, -⟩ := (hok.counts _).row_of_lookup hlookup
      obtain rfl := Option.some.inj (hindex.symm.trans hindex')
      exact hkey
  | legacy => exact hquiet rfl (Frame.refl db id) hsame ⟨hlogical, trivial⟩
  | legacyDeleting leaf =>
    refine hquiet rfl (Frame.of_same id rfl rfl rfl rfl) ?_ ⟨hlogical, trivial⟩
    exact BlobsKept.set_of_ne (fun data => (hlogical.ne_contentKeyOf _).symm) none
  | removing e =>
    simp only [advanceDelete]
    split
    · refine hquiet rfl (Frame.refl db id) hsame ⟨hlogical, h, ?_⟩
      intro hash hremoved
      cases hremoved
    · rename_i hash hrow
      split
      · exact hquiet rfl (Frame.refl db id) hsame ⟨hlogical, h⟩
      · rename_i hfree
        refine hquiet rfl (Frame.lockRef (by simpa using hfree)) hsame ⟨hlogical, h, ?_⟩
        intro hash' hremoved
        rw [← Option.some.inj hremoved]
        exact ⟨Function.update_self _ _ _, hrow⟩
  | releasing e removed =>
    simp only [advanceDelete]
    split
    · exact habort
    · rename_i row hlookup
      split
      · exact hquiet rfl (Frame.refl db id) hsame ⟨hlogical, h⟩
      · rename_i hfree
        have hframe : Frame db (db.lockIndex e.hash id) id :=
          Frame.lockIndex (by simpa using hfree)
        have hreleased := ReleasedOk.of_lockIndex id hlookup
        split
        · rename_i hlast
          rw [releasedRow, if_pos hlast] at hreleased
          exact hquiet rfl hframe hsame ⟨hlogical, h.1, h.2.lockIndex _, hreleased⟩
        · rename_i hmore
          rw [releasedRow, if_neg hmore] at hreleased
          exact hquiet rfl hframe hsame ⟨hlogical, h.1, h.2.lockIndex _, hreleased⟩
  | dropping e removed =>
    simp only [advanceDelete]
    split
    · exact hquiet rfl (Frame.refl db id) hsame ⟨hlogical, h⟩
    · split
      · exact habort
      · exact hquiet rfl (Frame.refl db id) hsame ⟨hlogical, h⟩
  | committing e removed released =>
    exact committingDelete_spec hok key e removed released ⟨hlogical, h⟩ hcommit
  | purging e => exact purgingDelete_spec hok key e hlogical
  | forgetting => exact forgettingDelete_spec hok key

/-- A delete that is about to remove the blob has taken the last row of its content away,
under the lock on the row of the hash. -/
theorem purging_of_advanceDelete (hok : TablesOk r sha256Hex db.tables) {c c' : DeleteCall β}
    (h : DeleteOk db id c) (hcommit : CommitOk db (.delete c))
    (hnext : (advanceDelete r db id c).2 = some (.delete c')) {e : DedupEntry}
    (hphase : c'.phase = .purging e) :
    db.indexLocks e.hash = some id ∧ e.contentKey = contentKeyOf e.hash ∧
      ∀ key, (advanceDelete r db id c).1.tables.refs.lookup key ≠ some e.hash := by
  obtain ⟨key, phase⟩ := c
  obtain ⟨hlogical, h⟩ := h
  cases phase with
  | committing e' removed released =>
    obtain ⟨hentry, hremoved, hlock, row, hindex, rfl⟩ := h
    obtain rfl : removed = some e'.hash := hcommit
    obtain ⟨-, hrow⟩ := hremoved e'.hash rfl
    obtain ⟨-, -, hcounts⟩ := commitDelete_spec hok.counts hrow hindex
    simp only [advanceDelete] at hnext
    cases hreleased : releasedRow row with
    | some left =>
      rw [hreleased] at hnext
      rw [← Call.delete.inj (Option.some.inj hnext)] at hphase
      cases hphase
    | none =>
      rw [hreleased] at hnext hcounts
      rw [← Call.delete.inj (Option.some.inj hnext)] at hphase
      obtain rfl : e' = e := DeletePhase.purging.inj hphase
      refine ⟨hlock, hentry, fun k hk => ?_⟩
      -- a row that is left would be counted, and the row of the hash is gone
      have hk' : (commitDelete db.tables key e' (some e'.hash) none).refs.lookup k =
          some e'.hash := by
        simpa only [advanceDelete, hreleased, Db.unlockAll] using hk
      obtain ⟨row', hrow', -⟩ := (hcounts e'.hash).row_of_lookup hk'
      simp [commitDelete] at hrow'
  | _ =>
    simp only [advanceDelete] at hnext
    repeat' split at hnext
    all_goals cases hnext
    all_goals cases hphase

/-- A delete past the row of its key has left no row, or was past it. -/
theorem pastRow_of_advanceDelete (hok : TablesOk r sha256Hex db.tables) {c c' : DeleteCall β}
    (h : DeleteOk db id c) (hcommit : CommitOk db (.delete c))
    (hnext : (advanceDelete r db id c).2 = some (.delete c')) (hpast : c'.phase.pastRow = true) :
    c'.key = c.key ∧ ((advanceDelete r db id c).1.tables.refs.lookup c.key = none ∨
      c.phase.pastRow = true ∧ (advanceDelete r db id c).1.tables.refs = db.tables.refs) := by
  obtain ⟨key, phase⟩ := c
  obtain ⟨hlogical, h⟩ := h
  cases phase with
  | reading =>
    simp only [advanceDelete] at hnext ⊢
    split at hnext
    · rename_i hrow
      cases hnext
      refine ⟨rfl, .inl ?_⟩
      show db.tables.refs.lookup key = none
      -- a row of the key would have been read, with the row of its hash
      cases hlookup : db.tables.refs.lookup key with
      | none => rfl
      | some hash =>
        obtain ⟨row, hindex, -⟩ := (hok.counts hash).row_of_lookup hlookup
        simp [Tables.dedupRow, hlookup, hindex] at hrow
    · cases hnext
      cases hpast
  | committing e removed released =>
    obtain ⟨-, hremoved, -, row, hindex, rfl⟩ := h
    obtain rfl : removed = some e.hash := hcommit
    obtain ⟨-, hrow⟩ := hremoved e.hash rfl
    obtain ⟨hrefs, -, -⟩ := commitDelete_spec hok.counts hrow hindex
    refine ⟨?_, .inl ?_⟩
    · simp only [advanceDelete] at hnext
      split at hnext
      · cases hnext
        rfl
      · cases hnext
        rfl
    · simp only [advanceDelete, Db.unlockAll, hrefs]
      rw [lookup_erase_eq, if_pos rfl]
  | legacy | legacyDeleting | purging =>
    cases hnext
    exact ⟨rfl, .inr ⟨rfl, rfl⟩⟩
  | _ =>
    simp only [advanceDelete] at hnext
    repeat' split at hnext
    all_goals cases hnext
    all_goals cases hpast

end Deletes

section Reliance
variable {β : Type} [DecidableEq β] {r : Router β} {sha256Hex : Bytes → String} {db : Db β} {id : ℕ}

/-- A store comes to rely on a blob by finding or placing it. -/
theorem relies_of_advanceStore {c : StoreCall} {call : Call β} {key hash : String}
    (hnext : (advanceStore r sha256Hex db id c).2 = some call)
    (hrelies : Relies sha256Hex call key hash) :
    Relies sha256Hex (.store c : Call β) key hash ∨
      Reaches r sha256Hex db c ∧ c.key = key ∧ sha256Hex c.data = hash := by
  obtain ⟨kind, k, data, size, phase⟩ := c
  cases phase with
  | checking p =>
    simp only [advanceStore] at hnext
    split at hnext
    · rename_i hfound
      rw [Bool.and_eq_true, decide_eq_true_iff] at hfound
      cases hnext
      exact .inr ⟨hfound, hrelies⟩
    · cases hnext
      cases hrelies
  | placing p =>
    simp only [advanceStore] at hnext
    split at hnext
    · cases hnext
    · cases hnext
      exact .inr ⟨trivial, hrelies⟩
  | discarding p =>
    cases hnext
    exact .inl hrelies
  | _ =>
    simp only [advanceStore] at hnext
    repeat' split at hnext
    all_goals cases hnext
    all_goals cases hrelies

theorem advanceStore_ne_delete (c : StoreCall) (c' : DeleteCall β) :
    (advanceStore r sha256Hex db id c).2 ≠ some (.delete c') := by
  intro hnext
  obtain ⟨kind, k, data, size, phase⟩ := c
  cases phase <;> simp only [advanceStore] at hnext
  all_goals repeat' split at hnext
  all_goals cases hnext

theorem advanceDelete_eq_delete {c : DeleteCall β} {call : Call β}
    (hnext : (advanceDelete r db id c).2 = some call) : ∃ c', call = .delete c' := by
  obtain ⟨key, phase⟩ := c
  cases phase <;> simp only [advanceDelete] at hnext
  all_goals repeat' split at hnext
  all_goals cases hnext
  all_goals exact ⟨_, rfl⟩

end Reliance

section Runs
variable {β : Type} [DecidableEq β] (r : Router β) (sha256Hex : Bytes → String)

/-- How a call comes to rely on a blob, to remove one and to forget a record. -/
structure Begun (db db' : Db β) (id : ℕ) (call : Call β) (next : Option (Call β)) : Prop where
  relies : ∀ call' key hash, next = some call' → Relies sha256Hex call' key hash →
    Relies sha256Hex call key hash ∨ ∃ c, call = .store c ∧ Reaches r sha256Hex db c ∧
      c.key = key ∧ sha256Hex c.data = hash
  purges : ∀ c e, next = some (.delete c) → c.phase = .purging e →
    db.indexLocks e.hash = some id ∧ e.contentKey = contentKeyOf e.hash ∧
      ∀ key, db'.tables.refs.lookup key ≠ some e.hash
  forgets : ∀ c, next = some (.delete c) → c.phase.pastRow = true →
    db'.tables.refs.lookup c.key = none ∨ ∃ c', call = .delete c' ∧ c'.key = c.key ∧
      c'.phase.pastRow = true ∧ db'.tables.refs = db.tables.refs

structure Inv (s : State β) : Prop where
  tables : TablesOk r sha256Hex s.db.tables
  blobs : ∀ key hash, s.db.tables.refs.lookup key = some hash → Placed r s.db key hash
  recorded : ∀ key hash, s.db.tables.refs.lookup key = some hash →
    (s.db.tables.storage.lookup key).isSome = true ∨ r.leafOf key = r.defaultLeaf ∨
      Recording s.calls key
  calls : ∀ id call, s.calls.lookup id = some call → CallOk r sha256Hex s.db id call
  /-- A blob that a delete is about to remove is not needed. -/
  purges : ∀ id c e, s.calls.lookup id = some (.delete c) → c.phase = .purging e →
    NotNeeded r sha256Hex s (r.resolveBackend e.backendName) e.contentKey
  /-- Nor is a routing record, where nobody is about to write it anew. -/
  forgets : ∀ id c, s.calls.lookup id = some (.delete c) → c.phase.pastRow = true →
    s.db.tables.refs.lookup c.key = none ∨ r.leafOf c.key = r.defaultLeaf ∨
      Recording s.calls c.key

/-- Calls are of logical keys, and the step taken does no harm. -/
def Safe (s : State β) : Event → Prop
  | .startStore _ _ key _ _ => Logical key
  | .startDelete _ key => Logical key
  | .advance id =>
    match s.calls.lookup id with
    | none => True
    | some call => Harmless r sha256Hex s call

instance (key : String) : Decidable (Logical key) := inferInstanceAs (Decidable (¬ _ ∧ _ = _))

instance decidableSafe (s : State β) : (e : Event) → Decidable (Safe r sha256Hex s e)
  | .startStore _ _ key _ _ => inferInstanceAs (Decidable (Logical key))
  | .startDelete _ key => inferInstanceAs (Decidable (Logical key))
  | .advance id =>
    match h : s.calls.lookup id with
    | none => .isTrue (by simp only [Safe, h])
    | some call => decidable_of_iff (Harmless r sha256Hex s call) (by simp only [Safe, h])

variable {r sha256Hex}

omit [DecidableEq β] in
theorem inv_empty : Inv r sha256Hex State.empty where
  tables := by
    refine ⟨fun _ => .inl ⟨rfl, rfl⟩, ?_, ?_⟩
    · intro key hash h
      cases h
    · intro key row h
      cases h
  blobs := by
    intro key hash h
    cases h
  recorded := by
    intro key hash h
    cases h
  calls := by
    intro id call h
    cases h
  purges := by
    intro id c e h
    cases h
  forgets := by
    intro id c h
    cases h

/-- A call as it starts. -/
def Call.First (call : Call β) : Prop :=
  (∃ c, call = .store c ∧ c.phase = .staging) ∨ ∃ c, call = .delete c ∧ c.phase = .reading

omit [DecidableEq β] in
theorem Call.First.not_relies {call : Call β} (h : call.First) (key hash : String) :
    ¬ Relies sha256Hex call key hash := by
  rcases h with ⟨⟨kind, k, data, size, phase⟩, rfl, hphase⟩ | ⟨c, rfl, -⟩
  · obtain rfl : phase = .staging := hphase
    exact id
  · exact id

omit [DecidableEq β] in
theorem inv_start {s : State β} (h : Inv r sha256Hex s) (id : ℕ) {call : Call β}
    (hfirst : call.First) (hcall : CallOk r sha256Hex s.db id call) :
    Inv r sha256Hex (s.start id call) := by
  unfold State.start
  cases hslot : s.calls.lookup id with
  | some taken => exact h
  | none =>
    have hrecording : ∀ key, Recording s.calls key → Recording (s.calls.insert id call) key := by
      rintro key ⟨other, c, hother, hc⟩
      refine ⟨other, c, ?_, hc⟩
      have hne : other ≠ id := by
        intro heq
        rw [heq, hslot] at hother
        cases hother
      rw [lookup_insert_eq, if_neg hne]
      exact hother
    have hdelete : ∀ other c, (s.calls.insert id call).lookup other = some (.delete c) →
        c.phase.pastRow = true → s.calls.lookup other = some (.delete c) := by
      intro other c hother hpast
      rw [lookup_insert_eq] at hother
      split at hother
      · rcases hfirst with ⟨c', rfl, -⟩ | ⟨c', rfl, hphase⟩
        · cases hother
        · rw [← Call.delete.inj (Option.some.inj hother), hphase] at hpast
          cases hpast
      · exact hother
    refine ⟨h.tables, h.blobs, ?_, ?_, ?_, ?_⟩
    · intro key hash hrow
      rcases h.recorded key hash hrow with hstorage | hdefault | hrec
      · exact .inl hstorage
      · exact .inr (.inl hdefault)
      · exact .inr (.inr (hrecording key hrec))
    · intro other call' hother
      rw [lookup_insert_eq] at hother
      split at hother
      · rename_i heq
        rw [← Option.some.inj hother, heq]
        exact hcall
      · exact h.calls other call' hother
    · intro other c e hother hphase
      have hold := h.purges other c e (hdelete other c hother (by rw [hphase]; rfl)) hphase
      refine ⟨hold.1, ?_⟩
      intro id' call' key hash hcall' hrelies
      rw [lookup_insert_eq] at hcall'
      split at hcall'
      · rw [← Option.some.inj hcall'] at hrelies
        exact absurd hrelies (hfirst.not_relies key hash)
      · exact hold.2 id' call' key hash hcall' hrelies
    · intro other c hother hpast
      rcases h.forgets other c (hdelete other c hother hpast) hpast with hnone | hdefault | hrec
      · exact .inl hnone
      · exact .inr (.inl hdefault)
      · exact .inr (.inr (hrecording c.key hrec))

omit [DecidableEq β] in
theorem lookup_setCall (calls : Assoc ℕ (Call β)) (id other : ℕ) (next : Option (Call β)) :
    (setCall calls id next).lookup other = if other = id then next else calls.lookup other := by
  cases next with
  | none => rw [setCall, lookup_erase_eq]
  | some call => rw [setCall, lookup_insert_eq]

omit [DecidableEq β] in
/-- A recording call that is not the one that steps stays. -/
theorem recording_setCall {calls : Assoc ℕ (Call β)} {id : ℕ} {call : Call β}
    (hslot : calls.lookup id = some call) {key : String} (h : Recording calls key)
    (next : Option (Call β)) :
    (∃ c, call = .store c ∧ c.key = key ∧ c.phase = .recording) ∨
      Recording (setCall calls id next) key := by
  obtain ⟨other, c, hother, hkey, hphase⟩ := h
  by_cases hne : other = id
  · subst hne
    rw [hslot] at hother
    exact .inl ⟨c, Option.some.inj hother, hkey, hphase⟩
  · exact .inr ⟨other, c, by rw [lookup_setCall, if_neg hne]; exact hother, hkey, hphase⟩

omit [DecidableEq β] in
theorem CallOk.placed {db : Db β} {id : ℕ} {call : Call β} (h : CallOk r sha256Hex db id call)
    {key hash : String} (hrelies : Relies sha256Hex call key hash) :
    Placed r db key hash ∧ db.indexLocks hash = some id ∧ ∃ data, hash = sha256Hex data := by
  cases call with
  | delete c => cases hrelies
  | store c =>
    obtain ⟨kind, k, data, size, phase⟩ := c
    cases phase with
    | discarding p =>
      obtain ⟨rfl, rfl⟩ := hrelies
      exact ⟨h.2, h.1.row.1, data, rfl⟩
    | committing p =>
      obtain ⟨rfl, rfl⟩ := hrelies
      exact ⟨h.2, h.1.row.1, data, rfl⟩
    | _ => cases hrelies

theorem commitOk_of_harmless {s : State β} {call : Call β} (h : Harmless r sha256Hex s call) :
    CommitOk s.db call := by
  cases call with
  | store c =>
    obtain ⟨kind, key, data, size, phase⟩ := c
    cases phase with
    | committing p => exact h
    | _ => trivial
  | delete c =>
    obtain ⟨key, phase⟩ := c
    cases phase with
    | committing e removed released => exact h
    | _ => trivial

theorem not_purges_of_reaches {s : State β} {c : StoreCall}
    (h : Harmless r sha256Hex s (.store c)) (hreaches : Reaches r sha256Hex s.db c) :
    ¬ Any (Call.purges r (r.leafOf c.key) (contentKeyOf (sha256Hex c.data))) s.calls := by
  obtain ⟨kind, key, data, size, phase⟩ := c
  cases phase with
  | checking p => exact h hreaches.1 hreaches.2
  | placing p => exact h
  | _ => exact hreaches.elim

section Stepping
variable {s : State β} (h : Inv r sha256Hex s) {id : ℕ} {call : Call β}
  (hslot : s.calls.lookup id = some call) (hharmless : Harmless r sha256Hex s call) {db : Db β}
  {next : Option (Call β)} (hadv : Advanced r sha256Hex s.db db id call next)
  (hbegun : Begun r sha256Hex s.db db id call next)
include h hslot

omit [DecidableEq β] in
include hadv in
/-- The blob of a row, or of a transaction that relies on it, stays. -/
theorem placed_advanced {key : String} {data : Bytes}
    (hneeds : s.db.tables.refs.lookup key = some (sha256Hex data) ∨
      ∃ other call', s.calls.lookup other = some call' ∧
        Relies sha256Hex call' key (sha256Hex data))
    (hplaced : Placed r s.db key (sha256Hex data)) : Placed r db key (sha256Hex data) := by
  rcases hadv.objects key data hplaced with hplaced | ⟨c, e, rfl, hphase, hleaf, hkey⟩
  · exact hplaced
  · have hnot := h.purges id c e hslot hphase
    rcases hneeds with hrow | ⟨other, call', hother, hrelies⟩
    · exact absurd hkey (hnot.1 key _ hrow hleaf)
    · exact absurd hkey (hnot.2 other call' key _ hother hrelies hleaf)

omit [DecidableEq β] in
include hadv in
theorem recorded_advanced {key hash : String} (hrow : db.tables.refs.lookup key = some hash) :
    (db.tables.storage.lookup key).isSome = true ∨ r.leafOf key = r.defaultLeaf ∨
      Recording (setCall s.calls id next) key := by
  rcases hadv.rows key hash hrow with hold | ⟨-, c, hnext, hc⟩
  · -- a recording call that is not the one that steps stays; the one that steps has recorded
    have hkept : Recording s.calls key →
        (db.tables.storage.lookup key).isSome = true ∨ Recording (setCall s.calls id next) key := by
      intro hrecording
      rcases recording_setCall hslot hrecording next with ⟨c, rfl, rfl, hphase⟩ | hstays
      · exact .inl (hadv.recorded c rfl hphase)
      · exact .inr hstays
    rcases h.recorded key hash hold with hstorage | hdefault | hrecording
    · rcases hadv.storage key hstorage with hstorage | ⟨c, rfl, rfl, hphase⟩
      · exact .inl hstorage
      · rcases h.forgets id c hslot (by rw [hphase]; rfl) with hnone | hdefault | hrecording
        · rw [hold] at hnone
          cases hnone
        · exact .inr (.inl hdefault)
        · rcases hkept hrecording with hstorage | hrecording
          · exact .inl hstorage
          · exact .inr (.inr hrecording)
    · exact .inr (.inl hdefault)
    · rcases hkept hrecording with hstorage | hrecording
      · exact .inl hstorage
      · exact .inr (.inr hrecording)
  · refine .inr (.inr ⟨id, c, ?_, hc⟩)
    rw [lookup_setCall, if_pos rfl]
    exact hnext

include hharmless hadv hbegun in
/-- A blob whose last row is gone is not needed again before it is removed: what stores of
the content do is under the lock of the delete's commit, or found the delete on its way. -/
theorem purges_advanced {id' : ℕ} {c : DeleteCall β} {e : DedupEntry}
    (hlookup : (setCall s.calls id next).lookup id' = some (.delete c))
    (hphase : c.phase = .purging e) :
    NotNeeded r sha256Hex ⟨db, setCall s.calls id next⟩ (r.resolveBackend e.backendName)
      e.contentKey := by
  rw [lookup_setCall] at hlookup
  split at hlookup
  · obtain ⟨hlock, hkey, hgone⟩ := hbegun.purges c e hlookup hphase
    refine ⟨?_, ?_⟩
    · rintro key hash hrow - heq
      obtain rfl := contentKeyOf_injective (heq.trans hkey)
      exact hgone key hrow
    · rintro other call' key hash hother hrelies - heq
      obtain rfl := contentKeyOf_injective (heq.trans hkey)
      rw [lookup_setCall] at hother
      split at hother
      · rw [hlookup] at hother
        obtain rfl := Option.some.inj hother
        exact hrelies
      · rename_i hne
        obtain ⟨-, hlock', -⟩ := (h.calls other call' hother).placed hrelies
        rw [hlock] at hlock'
        exact hne (Option.some.inj hlock').symm
  · rename_i hne
    have hnot := h.purges id' c e hlookup hphase
    refine ⟨?_, ?_⟩
    · intro key hash hrow hleaf
      rcases hadv.rows key hash hrow with hold | ⟨hrelies, -⟩
      · exact hnot.1 key hash hold hleaf
      · exact hnot.2 id call key hash hslot hrelies hleaf
    · intro other call' key hash hother hrelies hleaf heq
      rw [lookup_setCall] at hother
      split at hother
      · rcases hbegun.relies call' key hash hother hrelies with hold |
          ⟨c', rfl, hreaches, rfl, rfl⟩
        · exact hnot.2 id call key hash hslot hold hleaf heq
        · refine not_purges_of_reaches hharmless hreaches ⟨id', _, hlookup, ?_⟩
          obtain ⟨k, phase⟩ := c
          obtain rfl : phase = .purging e := hphase
          simp [Call.purges, hleaf, heq]
      · exact hnot.2 other call' key hash hother hrelies hleaf heq

include hharmless hadv hbegun in
theorem forgets_advanced {id' : ℕ} {c : DeleteCall β}
    (hlookup : (setCall s.calls id next).lookup id' = some (.delete c))
    (hpast : c.phase.pastRow = true) :
    db.tables.refs.lookup c.key = none ∨ r.leafOf c.key = r.defaultLeaf ∨
      Recording (setCall s.calls id next) c.key := by
  rw [lookup_setCall] at hlookup
  split at hlookup
  · rcases hbegun.forgets c hlookup hpast with hnone | ⟨c', rfl, hkey, hpast', hrefs⟩
    · exact .inl hnone
    · rw [hrefs, ← hkey]
      rcases h.forgets id c' hslot hpast' with hnone | hdefault | hrecording
      · exact .inl hnone
      · exact .inr (.inl hdefault)
      · rcases recording_setCall hslot hrecording next with ⟨_, hstore, -⟩ | hstays
        · cases hstore
        · exact .inr (.inr hstays)
  · rcases h.forgets id' c hlookup hpast with hnone | hdefault | hrecording
    · cases hrow : db.tables.refs.lookup c.key with
      | none => exact .inl rfl
      | some hash =>
        rcases hadv.rows c.key hash hrow with hold | ⟨-, c', hnext, hc⟩
        · rw [hnone] at hold
          cases hold
        · refine .inr (.inr ⟨id, c', ?_, hc⟩)
          rw [lookup_setCall, if_pos rfl]
          exact hnext
    · exact .inr (.inl hdefault)
    · rcases recording_setCall hslot hrecording next with ⟨c', rfl, hkey, hphase⟩ | hstays
      · obtain ⟨kind, k, data, size, phase⟩ := c'
        obtain rfl : phase = .recording := hphase
        obtain rfl : k = c.key := hkey
        rcases hharmless with hdefault | hnone
        · exact .inr (.inl hdefault)
        · exact absurd ⟨id', _, hlookup, by simp [Call.forgets, hpast]⟩ hnone
      · exact .inr (.inr hstays)

include hharmless hadv hbegun in
/-- A step that does no harm keeps the invariant, whichever call takes it. -/
theorem inv_advanced : Inv r sha256Hex ⟨db, setCall s.calls id next⟩ := by
  refine ⟨hadv.tables, ?_, fun key hash => recorded_advanced h hslot hadv, ?_,
    fun id' c e => purges_advanced h hslot hharmless hadv hbegun,
    fun id' c => forgets_advanced h hslot hharmless hadv hbegun⟩
  · intro key hash hrow
    rcases hadv.rows key hash hrow with hold | ⟨hrelies, -⟩
    · obtain ⟨data, rfl⟩ := h.tables.hashed key hash hold
      exact placed_advanced h hslot hadv (.inl hold) (h.blobs key _ hold)
    · obtain ⟨hplaced, -, data, rfl⟩ := (h.calls id call hslot).placed hrelies
      exact placed_advanced h hslot hadv (.inr ⟨id, call, hslot, hrelies⟩) hplaced
  · intro other call' hother
    rw [lookup_setCall] at hother
    split at hother
    · rename_i heq
      rw [heq]
      exact hadv.own call' hother
    · rename_i hne
      have hok := h.calls other call' hother
      refine hok.frame hadv.frame hne ?_
      intro key hash hrelies hplaced
      obtain ⟨-, -, data, rfl⟩ := hok.placed hrelies
      exact placed_advanced h hslot hadv (.inr ⟨other, call', hother, hrelies⟩) hplaced

end Stepping

theorem inv_step (hslash : ∀ data, '/' ∉ (sha256Hex data).toList) (s : State β) (e : Event)
    (h : Inv r sha256Hex s) (hsafe : Safe r sha256Hex s e) :
    Inv r sha256Hex (step r sha256Hex s e) := by
  cases e with
  | startStore id kind key data size => exact inv_start h id (.inl ⟨_, rfl, rfl⟩) trivial
  | startDelete id key => exact inv_start h id (.inr ⟨_, rfl, rfl⟩) ⟨hsafe, trivial⟩
  | advance id =>
    simp only [step]
    cases hslot : s.calls.lookup id with
    | none => exact h
    | some call =>
      have hharmless : Harmless r sha256Hex s call := by
        simpa only [Safe, hslot] using hsafe
      have hcommit := commitOk_of_harmless hharmless
      have hok := h.calls id call hslot
      cases call with
      | store c =>
        refine inv_advanced h hslot hharmless (advanceStore_spec hslash h.tables c hok hcommit)
          ⟨?_, ?_, ?_⟩
        · intro call' key hash hnext hrelies
          rcases relies_of_advanceStore hnext hrelies with hold | hreaches
          · exact .inl hold
          · exact .inr ⟨c, rfl, hreaches⟩
        · intro c' e hnext
          exact absurd hnext (advanceStore_ne_delete c c')
        · intro c' hnext
          exact absurd hnext (advanceStore_ne_delete c c')
      | delete c =>
        refine inv_advanced h hslot hharmless (advanceDelete_spec h.tables c hok hcommit)
          ⟨?_, ?_, ?_⟩
        · intro call' key hash hnext hrelies
          obtain ⟨c', rfl⟩ := advanceDelete_eq_delete hnext
          exact hrelies.elim
        · intro c' e hnext hphase
          exact purging_of_advanceDelete h.tables hok hcommit hnext hphase
        · intro c' hnext hpast
          obtain ⟨hkey, hrow⟩ := pastRow_of_advanceDelete h.tables hok hcommit hnext hpast
          rw [hkey]
          rcases hrow with hnone | ⟨hpast', hrefs⟩
          · exact .inl hnone
          · exact .inr ⟨c, rfl, rfl, hpast', hrefs⟩

/-- Every row has its blob where it is looked up, and every count is the number of rows. -/
def Live (r : Router β) (s : State β) : Prop :=
  (∀ key hash, s.db.tables.refs.lookup key = some hash →
    ∃ leaf, dedupContentKey r s.db.tables key = some (contentKeyOf hash, leaf) ∧
      (s.db.objects leaf (contentKeyOf hash)).isSome = true) ∧
  ∀ hash, refCount s.db.tables hash = countValue hash s.db.tables.refs

omit [DecidableEq β] in
theorem Inv.live {s : State β} (h : Inv r sha256Hex s) (hdone : ∀ id, s.calls.lookup id = none) :
    Live r s := by
  refine ⟨?_, fun hash => (h.tables.counts hash).refCount_eq⟩
  intro key hash hrow
  refine ⟨r.leafOf key, ?_, h.blobs key hash hrow⟩
  obtain ⟨row, hindex, hkey, -⟩ := (h.tables.counts hash).row_of_lookup hrow
  have hname : r.resolveBackend (((s.db.tables.storage.lookup key).map
      StorageRow.backendName).getD r.defaultName) = r.leafOf key := by
    cases hstorage : s.db.tables.storage.lookup key with
    | some storageRow =>
      rw [Option.map_some, Option.getD_some, h.tables.names key storageRow hstorage, Router.leafOf]
    | none =>
      rw [Option.map_none, Option.getD_none, Router.resolveBackend, r.default_present,
        Option.getD_some]
      rcases h.recorded key hash hrow with hsome | hdefault | ⟨id, c, hcall, -⟩
      · rw [hstorage] at hsome
        cases hsome
      · exact hdefault.symm
      · rw [hdone id] at hcall
        cases hcall
  simp only [dedupContentKey, Tables.dedupRow, Option.bind_eq_bind, hrow, hindex, hkey,
    Option.bind_some, resolve_or, Option.map_some, hname]

/-- In every run in which commits find the rows they read, and no store crosses a delete
between its commit and what it then removes, no live artifact has lost its bytes when all
calls have returned. -/
theorem no_live_artifact_loses_its_bytes (r : Router β) (sha256Hex : Bytes → String)
    (hslash : ∀ data, '/' ∉ (sha256Hex data).toList) (events : List Event)
    (hsafe : Runs.Guarded (step r sha256Hex) (Safe r sha256Hex) State.empty events)
    (hdone : ∀ id, (Runs.run (step r sha256Hex) State.empty events).calls.lookup id = none) :
    Live r (Runs.run (step r sha256Hex) State.empty events) :=
  (Runs.run_keeps (Safe r sha256Hex) (Inv r sha256Hex) (inv_step hslash) State.empty events
    inv_empty hsafe).live hdone

/-- Two stores of one content under two keys, on two backends, side by side: the second
waits for the first one's commit at the row of the hash. -/
def sideBySide : List Event :=
  [.startStore 0 .inline "artifact:npm/a" [97] none,
    .startStore 1 .streaming "artifact:cargo/b" [97] none,
    .advance 0, .advance 0, .advance 0, .advance 1, .advance 1, .advance 1,
    .advance 0, .advance 0, .advance 0, .advance 0,
    .advance 1, .advance 1, .advance 1, .advance 1, .advance 1, .advance 1, .advance 0]

/-- The first key is deleted while a third one is stored, which waits for the delete's commit;
then the key of the other backend goes, and takes the blob there with it. -/
def deletedBeside : List Event :=
  [.startDelete 2 "artifact:npm/a", .startStore 3 .inline "artifact:npm/c" [97] none,
    .advance 2, .advance 2, .advance 2, .advance 3, .advance 3, .advance 3,
    .advance 2, .advance 3, .advance 3, .advance 3, .advance 2, .advance 3, .advance 3, .advance 3,
    .startDelete 4 "artifact:npm/c", .advance 4, .advance 4, .advance 4, .advance 4, .advance 4,
    .startDelete 5 "artifact:cargo/b", .advance 5, .advance 5, .advance 5, .advance 5, .advance 5,
    .startStore 6 .inline "artifact:npm/d" [97] none,
    .advance 6, .advance 6, .advance 6, .advance 6, .advance 6, .advance 6, .advance 5, .advance 5,
    .advance 6, .advance 6]

theorem side_by_side_stores_are_live :
    Live sampleRouter (Runs.run (step sampleRouter sampleSha) State.empty
      (sideBySide ++ deletedBeside)) := by
  apply no_live_artifact_loses_its_bytes sampleRouter sampleSha sampleSha_slash
  · decide +kernel
  · have hempty : (Runs.run (step sampleRouter sampleSha) State.empty
        (sideBySide ++ deletedBeside)).calls.entries.isEmpty = true := by
      decide +kernel
    intro id
    refine AList.lookup_eq_none.mpr ?_
    rw [AList.mem_keys, AList.keys, List.isEmpty_iff.mp hempty]
    exact List.not_mem_nil

/-- A delete of the last key of a content is about to remove the blob when another key
is stored with the same bytes. -/
def lateRemoval : List Event :=
  [.startStore 0 .inline "artifact:npm/a" [97] none,
    .advance 0, .advance 0, .advance 0, .advance 0, .advance 0, .advance 0, .advance 0, .advance 0,
    .startDelete 1 "artifact:npm/a",
    .advance 1, .advance 1, .advance 1, .advance 1, .advance 1,
    .startStore 0 .inline "artifact:npm/b" [97] none,
    .advance 0, .advance 0, .advance 0, .advance 0, .advance 0, .advance 0, .advance 0, .advance 0,
    .advance 1, .advance 1]

/-- Both calls return, the second key has its row, and its blob is gone. -/
theorem late_removal_takes_a_live_blob :
    (Logical "artifact:npm/a" ∧ Logical "artifact:npm/b") ∧
      (∀ id, (Runs.run (step sampleRouter sampleSha) State.empty lateRemoval).calls.lookup id =
        none) ∧
      ¬ Live sampleRouter (Runs.run (step sampleRouter sampleSha) State.empty lateRemoval) := by
  refine ⟨⟨⟨by decide, by decide⟩, ⟨by decide, by decide⟩⟩, ?_, ?_⟩
  · have hempty : (Runs.run (step sampleRouter sampleSha) State.empty lateRemoval).calls = ∅ := by
      rfl
    intro id
    rw [hempty]
    rfl
  · intro hlive
    have hrow : (Runs.run (step sampleRouter sampleSha) State.empty
        lateRemoval).db.tables.refs.lookup "artifact:npm/b" = some (sampleSha [97]) := by
      decide
    have hwhere : dedupContentKey sampleRouter (Runs.run (step sampleRouter sampleSha) State.empty
        lateRemoval).db.tables "artifact:npm/b" = some (contentKeyOf (sampleSha [97]), false) := by
      decide
    have hgone : (Runs.run (step sampleRouter sampleSha) State.empty
        lateRemoval).db.objects false (contentKeyOf (sampleSha [97])) = none := by
      decide
    obtain ⟨leaf, hleaf, hsome⟩ := hlive.1 "artifact:npm/b" _ hrow
    rw [hwhere] at hleaf
    obtain rfl : false = leaf := (Prod.mk.inj (Option.some.inj hleaf)).2
    rw [hgone] at hsome
    cases hsome

end Runs

end BatleHub.StorageRouter.Traffic
