import BatleHub.InMemoryRegistry

/-!
The publish transaction and the delete, over the in-memory store and the blob
storage. A publish reserves a pending row, stores the bytes, commits the row and
makes its SBOM; a failure undoes the row and then the bytes. A delete turns the
row into a tombstone and then drops the bytes. Each task takes one call at a time,
so the calls of any number of tasks interleave; a task may also be dropped
between two calls.
-/
namespace BatleHub.PublishProtocol

open LocalPackages InMemoryRegistry Lib.AssocMap Lib.Texts

/-- What a handler hands to `publish`. The checksum is the digest of the bytes. -/
structure PublishRequest (sha256Hex : List UInt8 → String) where
  registry : String
  name : String
  version : String
  artifact : List UInt8
  checksum : String
  indexMetadata : Json
  unlisted : Bool
  publisherId : Option String
  signatureBytes : Option (List UInt8)
  signatureType : Option String
  computed : checksum = sha256Hex artifact

def artifactStorageKey (registry name version : String) : String :=
  "local:" ++ registry ++ "/" ++ name ++ "/" ++ version

/-- The storage key of a row. -/
def storageKeyOf (pkg : PublishedPackage) : String :=
  artifactStorageKey pkg.registry pkg.name pkg.version

variable {sha256Hex : List UInt8 → String}

/-- The row a publish reserves. An empty signature is no signature. -/
def PublishRequest.row (req : PublishRequest sha256Hex) (now : DateTime)
    (visibility : Visibility) : PublishedPackage where
  registry := req.registry
  name := req.name
  version := req.version
  checksum := req.checksum
  yanked := false
  deprecated := false
  deprecationMessage := none
  unlisted := req.unlisted
  indexMetadata := req.indexMetadata
  publishedAt := now
  publishedBy := req.publisherId
  signatureBytes := req.signatureBytes.filter fun b => !b.isEmpty
  signatureType := req.signatureType.filter fun t => !isBlank t
  visibility := visibility
  retentionKeep := false

inductive PublishPhase where
  | ready
  | reserved
  | stored
  | committed
  /-- `remove_pending` is next, and after it the bytes if they were stored. -/
  | undoRow (bytes : Bool)
  | undoBytes
  | returned (ok : Bool)
  | dropped
  deriving DecidableEq, Repr

/-- Between its reservation and its return. -/
def PublishPhase.inFlight : PublishPhase → Bool
  | .reserved | .stored | .committed | .undoRow _ | .undoBytes => true
  | .ready | .returned _ | .dropped => false

structure Publish (sha256Hex : List UInt8 → String) where
  req : PublishRequest sha256Hex
  publishedAt : DateTime
  visibility : Visibility
  phase : PublishPhase

def Publish.pkg (p : Publish sha256Hex) : PublishedPackage := p.req.row p.publishedAt p.visibility

def Publish.storageKey (p : Publish sha256Hex) : String :=
  artifactStorageKey p.req.registry p.req.name p.req.version

/-- Whether the kind stores a version's files under its artifact key. -/
def storesFilesUnderVersion : RegistryKind → Bool
  | .maven | .terraform | .nix => true
  | .github | .forgejo | .gitlab | .cargo | .npm | .openvsx | .goproxy | .pypi | .conda
  | .composer | .vscodeMarketplace | .rubygems | .nuget | .deb | .rpm | .pacman | .apk
  | .jetbrains | .jetbrainsMarketplace | .generic | .nodedist | .sdkman | .rustup | .galaxy
  | .devfile | .helm => false

def versionSiblingSuffixes : List String := [".sigzip", ".sigzip.upstream"]

/-- One call of `drop_version_bytes`. -/
inductive Drop where
  | key (key : String)
  | under (lead : String)
  deriving DecidableEq, Repr

/-- The calls of `drop_version_bytes`: the artifact, its signatures, and the files
under it where the kind stores some. -/
def dropVersionBytes (kind : Option RegistryKind) (registry name version : String) : List Drop :=
  let key := artifactStorageKey registry name version
  .key key :: versionSiblingSuffixes.map (fun suffix => .key (key ++ suffix)) ++
    if kind.any storesFilesUnderVersion then [.under (key ++ "/")] else []

def Drop.hits : Drop → String → Bool
  | .key k, stored => decide (stored = k)
  | .under lead, stored => startsWith stored lead

abbrev Blobs := Assoc String (List UInt8)

def Drop.apply : Drop → Blobs → Blobs
  | .key k, blobs => blobs.erase k
  | .under lead, blobs => retain (fun stored _ => !startsWith stored lead) blobs

inductive DeletePhase where
  | ready
  | dropping (rest : List Drop)
  | returned (tombstoned : Bool)
  | dropped
  deriving DecidableEq, Repr

structure Delete where
  registry : String
  name : String
  version : String
  deletedBy : Option String
  phase : DeletePhase
  deriving DecidableEq, Repr

structure World (sha256Hex : List UInt8 → String) where
  store : Store
  blobs : Blobs
  publishes : Assoc ℕ (Publish sha256Hex)
  deletes : Assoc ℕ Delete

def World.initial : World sha256Hex := ⟨∅, ∅, ∅, ∅⟩

/-- `ok` says whether the call behind the step succeeds, where it may fail: the
policy in front of a transaction, the storage, the commit, a required SBOM. -/
inductive Event (sha256Hex : List UInt8 → String) where
  | startPublish (t : ℕ) (req : PublishRequest sha256Hex) (publishedAt : DateTime)
      (visibility : Visibility)
  | publishStep (t : ℕ) (now : DateTime) (ok : Bool)
  | dropPublish (t : ℕ)
  | startDelete (t : ℕ) (registry name version : String) (deletedBy : Option String)
  | deleteStep (t : ℕ) (now : DateTime) (ok : Bool)
  | dropDelete (t : ℕ)

def World.setPublish (s : World sha256Hex) (t : ℕ) (p : Publish sha256Hex)
    (phase : PublishPhase) : World sha256Hex :=
  { s with publishes := s.publishes.insert t { p with phase := phase } }

def World.setDelete (s : World sha256Hex) (t : ℕ) (d : Delete) (phase : DeletePhase) :
    World sha256Hex :=
  { s with deletes := s.deletes.insert t { d with phase := phase } }

section Steps
variable (env : TextEnv) (kindOf : String → Option RegistryKind)

/-- The record a publish works on. Names are lowered here, and not in the storage key. -/
def Publish.recordKey (p : Publish sha256Hex) : String × String :=
  InMemoryRegistry.recordKey env p.req.registry p.req.name p.req.version

def Delete.recordKey (d : Delete) : String × String :=
  InMemoryRegistry.recordKey env d.registry d.name d.version

def Delete.drops (d : Delete) : List Drop :=
  dropVersionBytes (kindOf d.registry) d.registry d.name d.version

/-- `execute_publish_transaction` and `run_publish_sbom`, one call at a time. -/
def publishStep (s : World sha256Hex) (t : ℕ) (p : Publish sha256Hex) (now : DateTime)
    (ok : Bool) : World sha256Hex :=
  match p.phase with
  | .ready =>
    if ok then
      match publish env now p.pkg s.store with
      | .ok store => { s with store := store }.setPublish t p .reserved
      | .error _ => s.setPublish t p (.returned false)
    else s.setPublish t p (.returned false)
  | .reserved =>
    if ok then
      { s with blobs := s.blobs.insert p.storageKey p.req.artifact }.setPublish t p .stored
    else s.setPublish t p (.undoRow false)
  | .stored =>
    if ok then
      { s with store := commitPublish env p.req.registry p.req.name p.req.version s.store
        }.setPublish t p .committed
    else s.setPublish t p (.undoRow true)
  | .committed => s.setPublish t p (if ok then .returned true else .undoRow true)
  | .undoRow bytes =>
    { s with store := removeVersion env p.req.registry p.req.name p.req.version s.store
      }.setPublish t p (if bytes then .undoBytes else .returned false)
  | .undoBytes =>
    { s with blobs := if ok then s.blobs.erase p.storageKey else s.blobs
      }.setPublish t p (.returned false)
  | .returned _ => s
  | .dropped => s

/-- `delete_version` and `drop_version_bytes`. A drop that fails is logged. -/
def deleteStep (s : World sha256Hex) (t : ℕ) (d : Delete) (now : DateTime) (ok : Bool) :
    World sha256Hex :=
  match d.phase with
  | .ready =>
    if ok then
      let result := tombstoneVersion env now d.registry d.name d.version d.deletedBy s.store
      { s with store := result.2 }.setDelete t d
        (if result.1 then .dropping (d.drops kindOf) else .returned false)
    else s.setDelete t d (.returned false)
  | .dropping [] => s.setDelete t d (.returned true)
  | .dropping (x :: rest) =>
    { s with blobs := if ok then x.apply s.blobs else s.blobs }.setDelete t d (.dropping rest)
  | .returned _ => s
  | .dropped => s

def step (s : World sha256Hex) : Event sha256Hex → World sha256Hex
  | .startPublish t req publishedAt visibility =>
    match s.publishes.lookup t with
    | some _ => s
    | none => s.setPublish t ⟨req, publishedAt, visibility, .ready⟩ .ready
  | .publishStep t now ok =>
    match s.publishes.lookup t with
    | none => s
    | some p => publishStep env s t p now ok
  | .dropPublish t =>
    match s.publishes.lookup t with
    | none => s
    | some p =>
      match p.phase with
      | .returned _ => s
      | _ => s.setPublish t p .dropped
  | .startDelete t registry name version deletedBy =>
    match s.deletes.lookup t with
    | some _ => s
    | none => s.setDelete t ⟨registry, name, version, deletedBy, .ready⟩ .ready
  | .deleteStep t now ok =>
    match s.deletes.lookup t with
    | none => s
    | some d => deleteStep env kindOf s t d now ok
  | .dropDelete t =>
    match s.deletes.lookup t with
    | none => s
    | some d =>
      match d.phase with
      | .returned _ => s
      | _ => s.setDelete t d .dropped

end Steps

@[simp]
theorem lookup_apply (x : Drop) (blobs : Blobs) (key : String) :
    (x.apply blobs).lookup key = if x.hits key then none else blobs.lookup key := by
  cases x with
  | key k => simp [Drop.apply, Drop.hits]
  | under lead =>
    simp only [Drop.apply, Drop.hits, lookup_retain]
    by_cases hlead : startsWith key lead = true
    · cases blobs.lookup key <;> simp [hlead, Option.filter]
    · cases blobs.lookup key <;> simp [hlead, Option.filter]

@[simp]
theorem storageKeyOf_pkg (p : Publish sha256Hex) : storageKeyOf p.pkg = p.storageKey := rfl

/-- A publish after one was moved: that one, or one that was there. -/
theorem lookup_setPublish {s : World sha256Hex} {t u : ℕ} {p q : Publish sha256Hex}
    {phase : PublishPhase} (h : (s.setPublish t p phase).publishes.lookup u = some q) :
    u = t ∧ q = { p with phase := phase } ∨ u ≠ t ∧ s.publishes.lookup u = some q := by
  simp only [World.setPublish, lookup_insert_eq] at h
  split at h
  · rename_i heq
    exact .inl ⟨heq, (Option.some.inj h).symm⟩
  · rename_i hne
    exact .inr ⟨hne, h⟩

theorem lookup_setDelete {s : World sha256Hex} {t u : ℕ} {d e : Delete} {phase : DeletePhase}
    (h : (s.setDelete t d phase).deletes.lookup u = some e) :
    u = t ∧ e = { d with phase := phase } ∨ u ≠ t ∧ s.deletes.lookup u = some e := by
  simp only [World.setDelete, lookup_insert_eq] at h
  split at h
  · rename_i heq
    exact .inl ⟨heq, (Option.some.inj h).symm⟩
  · rename_i hne
    exact .inr ⟨hne, h⟩

end BatleHub.PublishProtocol
