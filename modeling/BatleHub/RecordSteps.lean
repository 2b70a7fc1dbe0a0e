import BatleHub.InMemoryRegistry

/-!
The calls of the in-memory store that may write, and what one of them can do to one
record. Every invariant of the store goes through `step_record`.
-/
namespace BatleHub.RecordSteps

open LocalPackages InMemoryRegistry Lib.AssocMap

/-- One call of the backend that may write. Times are those the call reads. -/
inductive Op where
  | publish (now : DateTime) (pkg : PublishedPackage)
  | commitPublish (registry name version : String)
  | yank (registry name version : String)
  | unyank (registry name version : String)
  | deprecateVersion (registry name version : String) (message : Option String)
  | undeprecateVersion (registry name version : String)
  | unlist (registry name version : String)
  | relist (registry name version : String)
  | setChannel (registry name version channel : String)
  | setVsixSignatureProvided (registry name version : String) (provided : Bool)
  | setRetentionKeep (registry name version : String) (keep : Bool)
  | removeVersion (registry name version : String)
  | tombstoneVersion (now : DateTime) (registry name version : String)
      (deletedBy : Option String)
  | compactTombstoneDetail (now : DateTime) (registry : String) (olderThan : ℕ) (dryRun : Bool)
  | cleanupPending (now : DateTime) (olderThan : ℕ)

/-- The store after one call. A refused publish changes nothing. -/
def step (env : TextEnv) (store : Store) : Op → Store
  | .publish now pkg =>
    match publish env now pkg store with
    | .ok store' => store'
    | .error _ => store
  | .commitPublish registry name version => commitPublish env registry name version store
  | .yank registry name version => yank env registry name version store
  | .unyank registry name version => unyank env registry name version store
  | .deprecateVersion registry name version message =>
    deprecateVersion env registry name version message store
  | .undeprecateVersion registry name version => undeprecateVersion env registry name version store
  | .unlist registry name version => unlist env registry name version store
  | .relist registry name version => relist env registry name version store
  | .setChannel registry name version channel =>
    (setChannel env registry name version channel store).2
  | .setVsixSignatureProvided registry name version provided =>
    (setVsixSignatureProvided env registry name version provided store).2
  | .setRetentionKeep registry name version keep =>
    (setRetentionKeep env registry name version keep store).2
  | .removeVersion registry name version => removeVersion env registry name version store
  | .tombstoneVersion now registry name version deletedBy =>
    (tombstoneVersion env now registry name version deletedBy store).2
  | .compactTombstoneDetail now registry olderThan dryRun =>
    (compactTombstoneDetail now registry olderThan dryRun store).2
  | .cleanupPending now olderThan => (cleanupPending now olderThan store).2

/-- No commit finds a deleted record. -/
def CommitsLive (env : TextEnv) (store : Store) : Op → Prop
  | .commitPublish registry name version =>
    ∀ r, store.lookup (recordKey env registry name version) = some r → r.status ≠ .deleted
  | _ => True

/-- What one call can do to the record under one key, when no commit finds a
deleted record. The version is the key's. -/
inductive RecordStep (version : String) : Option Record → Option Record → Prop where
  | same (x : Option Record) : RecordStep version x x
  | reserved (x : Option Record) (pkg : PublishedPackage) (now : DateTime)
      (hfree : ∀ r, x = some r → r.deletion = none ∧ r.status ≠ .published)
      (hversion : pkg.version = version) :
      RecordStep version x (some ⟨pkg, .pending, now, none⟩)
  | committed (r : Record) (hstatus : r.status ≠ .deleted) :
      RecordStep version (some r) (some { r with status := .published })
  | edited (r : Record) (pkg : PublishedPackage) (hstatus : r.status = .published)
      (hversion : pkg.version = r.pkg.version) :
      RecordStep version (some r) (some { r with pkg := pkg })
  | removed (r : Record) (hstatus : r.status ≠ .deleted) : RecordStep version (some r) none
  | deleted (r : Record) (mark : DeletionMark) (hstatus : r.status = .published) :
      RecordStep version (some r) (some { r with status := .deleted, deletion := some mark })
  | stripped (r : Record) (mark mark' : DeletionMark) (pkg : PublishedPackage)
      (hmark : r.deletion = some mark) (hat : mark'.deletedAt = mark.deletedAt)
      (hversion : pkg.version = r.pkg.version) :
      RecordStep version (some r) (some { r with deletion := some mark', pkg := pkg })

section StepCases
variable (env : TextEnv)

/-- An edit of a published package that keeps its version. -/
theorem updatePackage_record (registry name version : String)
    (f : PublishedPackage → PublishedPackage) (hf : ∀ p, (f p).version = p.version)
    (store : Store) (key : String × String) :
    RecordStep key.2 (store.lookup key)
      ((updatePackage env registry name version f store).lookup key) := by
  unfold updatePackage
  rw [lookup_updatePublished]
  split
  · cases store.lookup key with
    | none => exact .same none
    | some r =>
      rw [Option.map_some]
      split
      · rename_i hstatus
        exact .edited r (f r.pkg) hstatus (hf r.pkg)
      · exact .same (some r)
  · exact .same _

theorem publish_record (now : DateTime) (pkg : PublishedPackage) (store : Store)
    (key : String × String) :
    RecordStep key.2 (store.lookup key) ((step env store (.publish now pkg)).lookup key) := by
  simp only [step]
  cases hpublish : publish env now pkg store with
  | error e => exact .same _
  | ok store' =>
    obtain ⟨rfl, hfree⟩ := publish_eq_ok env hpublish
    rw [lookup_insert_eq]
    split
    · rename_i hk
      subst hk
      exact .reserved _ pkg now hfree rfl
    · exact .same _

theorem removeVersion_record (registry name version : String) (store : Store)
    (key : String × String) :
    RecordStep key.2 (store.lookup key) ((removeVersion env registry name version store).lookup key)
      := by
  rw [lookup_removeVersion]
  split
  · rename_i hk
    subst hk
    cases hr : store.lookup (recordKey env registry name version) with
    | none => exact .same none
    | some r =>
      rw [Option.filter_some]
      split
      · exact .same _
      · rename_i hlive
        exact .removed r (by simpa using hlive)
  · exact .same _

theorem tombstoneVersion_record (now : DateTime) (registry name version : String)
    (deletedBy : Option String) (store : Store) (key : String × String) :
    RecordStep key.2 (store.lookup key)
      ((tombstoneVersion env now registry name version deletedBy store).2.lookup key) := by
  rw [lookup_tombstoneVersion]
  split
  · cases store.lookup key with
    | none => exact .same none
    | some r =>
      rw [Option.map_some]
      split
      · rename_i hstatus
        exact .deleted r _ hstatus
      · exact .same (some r)
  · exact .same _

theorem stripDetail_record (now cutoff : DateTime) (version : String) (r : Record) :
    RecordStep version (some r) (some (stripDetail now cutoff r)) := by
  unfold stripDetail
  cases hmark : r.deletion with
  | none => exact .same _
  | some mark =>
    dsimp only
    split
    · exact .stripped r mark _ _ hmark rfl rfl
    · exact .same _

theorem compactTombstoneDetail_record (now : DateTime) (registry : String) (olderThan : ℕ)
    (dryRun : Bool) (store : Store) (key : String × String) :
    RecordStep key.2 (store.lookup key)
      ((compactTombstoneDetail now registry olderThan dryRun store).2.lookup key) := by
  unfold compactTombstoneDetail
  split
  · exact .same _
  · dsimp only
    split
    · exact .same _
    · rw [lookup_mapValues]
      cases store.lookup key with
      | none => exact .same none
      | some r =>
        rw [Option.map_some]
        split
        · exact stripDetail_record now _ key.2 r
        · exact .same _

theorem cleanupPending_record (now : DateTime) (olderThan : ℕ) (store : Store)
    (key : String × String) :
    RecordStep key.2 (store.lookup key) ((cleanupPending now olderThan store).2.lookup key) := by
  unfold cleanupPending
  split
  · exact .same _
  · dsimp only
    rw [lookup_retain]
    cases store.lookup key with
    | none => exact .same none
    | some r =>
      by_cases hold : r.status = .pending
      · rw [Option.filter_some]
        split
        · exact .same _
        · exact .removed r (by simp [hold])
      · simp only [Option.filter_some, hold, decide_false, Bool.false_and, Bool.not_false,
          if_true]
        exact .same _

/-- Every call, at every key. -/
theorem step_record (store : Store) (op : Op) (h : CommitsLive env store op)
    (key : String × String) :
    RecordStep key.2 (store.lookup key) ((step env store op).lookup key) := by
  cases op with
  | publish now pkg => exact publish_record env now pkg store key
  | commitPublish registry name version =>
    simp only [step, commitPublish, lookup_modify]
    split
    · rename_i hk
      subst hk
      cases hr : store.lookup (recordKey env registry name version) with
      | none => exact .same none
      | some r => exact .committed r (h r hr)
    · exact .same _
  | yank registry name version => exact updatePackage_record env _ _ _ _ (by intro p; rfl) store key
  | unyank registry name version => exact updatePackage_record env _ _ _ _ (by intro p; rfl) store key
  | deprecateVersion registry name version message =>
    exact updatePackage_record env _ _ _ _ (by intro p; rfl) store key
  | undeprecateVersion registry name version =>
    exact updatePackage_record env _ _ _ _ (by intro p; rfl) store key
  | unlist registry name version => exact updatePackage_record env _ _ _ _ (by intro p; rfl) store key
  | relist registry name version => exact updatePackage_record env _ _ _ _ (by intro p; rfl) store key
  | setChannel registry name version channel =>
    simp only [step, setChannel]
    split
    · exact .same _
    · split
      · exact .same _
      · exact updatePackage_record env _ _ _ _ (by intro p; rfl) store key
  | setVsixSignatureProvided registry name version provided =>
    simp only [step, setVsixSignatureProvided]
    split
    · exact .same _
    · split
      · exact .same _
      · split
        · exact .same _
        · exact updatePackage_record env _ _ _ _ (by intro p; rfl) store key
  | setRetentionKeep registry name version keep =>
    simp only [step, setRetentionKeep]
    split
    · exact .same _
    · split
      · exact .same _
      · exact updatePackage_record env _ _ _ _ (by intro p; rfl) store key
  | removeVersion registry name version => exact removeVersion_record env _ _ _ store key
  | tombstoneVersion now registry name version deletedBy =>
    exact tombstoneVersion_record env now _ _ _ _ store key
  | compactTombstoneDetail now registry olderThan dryRun =>
    exact compactTombstoneDetail_record now registry olderThan dryRun store key
  | cleanupPending now olderThan => exact cleanupPending_record now olderThan store key

end StepCases

end BatleHub.RecordSteps
