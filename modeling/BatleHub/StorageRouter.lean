import BatleHub.Lib.AssocMap
import BatleHub.Lib.Texts
import BatleHub.Vocabulary
import Mathlib.Data.Int.Notation
import Mathlib.Data.List.Infix

/-!
The deduplicating storage router (`storage/router`). A logical key is a row that names
a content hash; the bytes are at `blob/<hash>` on the backend the key is routed to. The
two dedup tables and the routing table are rows of one database, whose statements
succeed; a backend is a plain store of objects, and any operation on it may fail.
-/
namespace BatleHub.StorageRouter

open Lib AssocMap

abbrev Bytes := List UInt8

section Keys

def STAGING_PREFIX : String := "staging:"

/-- The artifact key a staging key was made for. -/
def stagedDestination (key : String) : Option String :=
  (Texts.stripPrefix key STAGING_PREFIX).bind fun rest =>
    (Texts.splitOnce rest '/').map Prod.snd

/-- `k.split('/').next()`. -/
def firstSegment (s : String) : String := String.ofList (s.toList.takeWhile (· ≠ '/'))

def routeKeyToBackend (key : String) (registryAssignments : String → Option String)
    (defaultName : String) : String :=
  let key := (stagedDestination key).getD key
  let registry := ((Texts.stripPrefix key "artifact:").map firstSegment).getD ""
  (registryAssignments registry).getD defaultName

/-- `format!("blob/{content_hash}")`. -/
def contentKeyOf (hash : String) : String := "blob/" ++ hash

def stagingBlobKey (uuid : String) : String := "blob/staging/" ++ uuid

def backslash : Char := Char.ofNat 92

def likePrefixPattern (lead : List Char) : List Char :=
  lead.flatMap (fun c => if c = backslash ∨ c = '%' ∨ c = '_' then [backslash, c] else [c]) ++ ['%']

inductive LikeToken where
  | any
  | one
  | char (c : Char)

def tokenOf (c : Char) : LikeToken := if c = '%' then .any else if c = '_' then .one else .char c

/-- A pattern of `LIKE … ESCAPE '\'`, read. -/
def likeTokens : List Char → List LikeToken
  | [] => []
  | [c] => [tokenOf c]
  | c :: d :: rest =>
    if c = backslash then .char d :: likeTokens rest else tokenOf c :: likeTokens (d :: rest)

def matchTokens : List LikeToken → List Char → Bool
  | [], text => text.isEmpty
  | .any :: tokens, text => text.tails.any fun rest => matchTokens tokens rest
  | .one :: tokens, _ :: rest => matchTokens tokens rest
  | .char c :: tokens, a :: rest => c == a && matchTokens tokens rest
  | _ :: _, [] => false

def like (pattern text : List Char) : Bool := matchTokens (likeTokens pattern) text

theorem likeTokens_likePrefixPattern (lead : List Char) :
    likeTokens (likePrefixPattern lead) = lead.map LikeToken.char ++ [.any] := by
  induction lead with
  | nil => rfl
  | cons c lead ih =>
    by_cases hc : c = backslash ∨ c = '%' ∨ c = '_'
    · have hpattern : likePrefixPattern (c :: lead) = backslash :: c :: likePrefixPattern lead := by
        simp [likePrefixPattern, hc]
      rw [hpattern, likeTokens, if_pos rfl, ih]
      rfl
    · have hpattern : likePrefixPattern (c :: lead) = c :: likePrefixPattern lead := by
        simp [likePrefixPattern, hc]
      rw [not_or, not_or] at hc
      have htoken : tokenOf c = .char c := by
        rw [tokenOf, if_neg hc.2.1, if_neg hc.2.2]
      obtain ⟨d, rest, hrest⟩ : ∃ d rest, likePrefixPattern lead = d :: rest :=
        List.exists_cons_of_ne_nil (by simp [likePrefixPattern])
      rw [hpattern, hrest, likeTokens, if_neg hc.1, htoken, ← hrest, ih]
      rfl

/-- A prefix pattern matches the texts that start with the prefix. -/
theorem like_likePrefixPattern (lead text : List Char) :
    like (likePrefixPattern lead) text = lead.isPrefixOf text := by
  rw [like, likeTokens_likePrefixPattern]
  induction lead generalizing text with
  | nil =>
    have hend : [] ∈ text.tails := (List.mem_tails [] text).mpr List.nil_suffix
    simp only [List.map_nil, List.nil_append, matchTokens, List.isPrefixOf_nil_left,
      List.any_eq_true]
    exact ⟨[], hend, rfl⟩
  | cons c lead ih =>
    cases text with
    | nil => rfl
    | cons a rest => simp only [List.map_cons, List.cons_append, matchTokens, ih, List.isPrefixOf]

end Keys

section Backends
variable {β : Type} [DecidableEq β]

/-- How an operation of a backend ends. A failed one may have had its effect, at the key
it writes and at the key it removes. -/
inductive Outcome where
  | ok
  | failed (written removed : Bool) (reason : String)
  deriving DecidableEq, Repr

/-- The objects of every backend. -/
abbrev Objects (β : Type) := β → String → Option Bytes

def Objects.set (objs : Objects β) (leaf : β) (key : String) (value : Option Bytes) : Objects β :=
  fun l k => if l = leaf ∧ k = key then value else objs l k

def Objects.setIf (objs : Objects β) (effect : Bool) (leaf : β) (key : String)
    (value : Option Bytes) : Objects β :=
  if effect then objs.set leaf key value else objs

/-- `backend.store`, and `backend.store_streaming` with the bytes of the stream. -/
def leafStore (o : Outcome) (objs : Objects β) (leaf : β) (key : String) (data : Bytes) :
    Except CoreError Unit × Objects β :=
  match o with
  | .ok => (.ok (), objs.set leaf key (some data))
  | .failed written _ reason => (.error (.storage reason), objs.setIf written leaf key (some data))

/-- `backend.move_key`. -/
def leafMove (o : Outcome) (objs : Objects β) (leaf : β) (src dst : String) :
    Except CoreError Unit × Objects β :=
  match objs leaf src with
  | none => (.error (.storage ("move_key source '" ++ src ++ "' does not exist")), objs)
  | some data =>
    match o with
    | .ok => (.ok (), (objs.set leaf dst (some data)).set leaf src none)
    | .failed written removed reason =>
      (.error (.storage reason),
        (objs.setIf written leaf dst (some data)).setIf removed leaf src none)

/-- `backend.delete`; the answer is whether the key was there. -/
def leafDelete (o : Outcome) (objs : Objects β) (leaf : β) (key : String) :
    Except CoreError Bool × Objects β :=
  match o with
  | .ok => (.ok (objs leaf key).isSome, objs.set leaf key none)
  | .failed _ removed reason => (.error (.storage reason), objs.setIf removed leaf key none)

/-- `backend.exists(key).await.unwrap_or(false)`. -/
def leafExists (o : Outcome) (objs : Objects β) (leaf : β) (key : String) : Bool :=
  match o with
  | .ok => (objs leaf key).isSome
  | .failed _ _ _ => false

end Backends

section Tables

structure IndexRow where
  contentKey : String
  refCount : ℤ
  sizeBytes : Option ℕ
  deriving DecidableEq, Repr

structure StorageRow where
  backendName : String
  sizeBytes : Option ℕ
  deriving DecidableEq, Repr

/-- `artifact_dedup_refs`, `artifact_dedup_index` and `artifact_storage`. -/
structure Tables where
  refs : Assoc String String
  index : Assoc String IndexRow
  storage : Assoc String StorageRow

namespace Tables

def empty : Tables := ⟨∅, ∅, ∅⟩

/-- The foreign key of the references keeps a row of the index. -/
def referenced (t : Tables) (hash : String) : Bool := t.refs.entries.any fun e => decide (e.2 = hash)

/-- Insert the hash with one reference, or add one; the new count. -/
def upsertIndex (t : Tables) (hash contentKey : String) (size : Option ℕ) : ℤ × Tables :=
  match t.index.lookup hash with
  | none => (1, { t with index := t.index.insert hash ⟨contentKey, 1, size⟩ })
  | some row =>
    (row.refCount + 1,
      { t with index := t.index.insert hash { row with refCount := row.refCount + 1 } })

def upsertRef (t : Tables) (key hash : String) : Tables :=
  { t with refs := t.refs.insert key hash }

def deleteRef (t : Tables) (key : String) : Tables := { t with refs := t.refs.erase key }

/-- Take one off the count, and delete the row when none is left; the new count. -/
def releaseHash (t : Tables) (hash : String) : Except CoreError (ℤ × Tables) :=
  match t.index.lookup hash with
  | none =>
    .error (.storage "no rows returned by a query that expected to return at least one row")
  | some row =>
    let count := row.refCount - 1
    if count ≤ 0 then
      if t.referenced hash then
        .error (.storage "update or delete on artifact_dedup_index violates a foreign key")
      else .ok (count, { t with index := t.index.erase hash })
    else .ok (count, { t with index := t.index.insert hash { row with refCount := count } })

def recordBackend (t : Tables) (key backendName : String) (size : Option ℕ) : Tables :=
  { t with storage := t.storage.insert key ⟨backendName, size⟩ }

def forgetBackend (t : Tables) (key : String) : Tables :=
  { t with storage := t.storage.erase key }

/-- `lazy_update_size`: only where no size is known. -/
def lazyUpdateSize (t : Tables) (key : String) (size : ℕ) : Tables :=
  let known := fun row : StorageRow => { row with sizeBytes := row.sizeBytes.or (some size) }
  { t with storage := AssocMap.modify key known t.storage }

/-- The joined row of a key: its hash, the content key and the recorded backend's name. -/
def dedupRow (t : Tables) (defaultName key : String) : Option (String × String × String) := do
  let hash ← t.refs.lookup key
  let row ← t.index.lookup hash
  some (hash, row.contentKey, ((t.storage.lookup key).map StorageRow.backendName).getD defaultName)

/-- The keys of the references, and those that only the routing table has. -/
def logicalKeysByPrefix (t : Tables) (lead : String) : List String :=
  let matching := fun key : String => like (likePrefixPattern lead.toList) key.toList
  let referenced := t.refs.keys.filter matching
  referenced ++ (t.storage.keys.filter fun key => matching key && !referenced.contains key)

end Tables

end Tables

section Operations
variable {β : Type} [DecidableEq β]

/-- The configured backends, by name. The default one is always present. -/
structure Router (β : Type) where
  backends : String → Option β
  defaultName : String
  defaultLeaf : β
  default_present : backends defaultName = some defaultLeaf
  registryAssignments : String → Option String

namespace Router

def backendNameForKey (r : Router β) (key : String) : String :=
  routeKeyToBackend key r.registryAssignments r.defaultName

def resolveBackend (r : Router β) (name : String) : β := (r.backends name).getD r.defaultLeaf

/-- The leaf backend of a key that routing assigns it to. -/
def leafOf (r : Router β) (key : String) : β := r.resolveBackend (r.backendNameForKey key)

end Router

/-- How each operation a call makes of a backend ends. -/
structure BlobOutcomes where
  stream : Outcome
  existence : Outcome
  materialize : Outcome
  discard : Outcome
  cleanup : Outcome
  deletion : Outcome
  deriving DecidableEq, Repr

def BlobOutcomes.allOk : BlobOutcomes := ⟨.ok, .ok, .ok, .ok, .ok, .ok⟩

structure StoreOutcome where
  contentHash : String
  size : ℕ
  deriving DecidableEq, Repr

structure DedupTarget where
  key : String
  contentHash : String
  contentKey : String
  size : Option ℕ

inductive BlobSource where
  | inline (data : Bytes)
  | staged (stagingKey : String)

def BlobSource.materialize (source : BlobSource) (o : Outcome) (objs : Objects β) (leaf : β)
    (contentKey : String) : Except CoreError Unit × Objects β :=
  match source with
  | .inline data => leafStore o objs leaf contentKey data
  | .staged stagingKey => leafMove o objs leaf stagingKey contentKey

/-- Best-effort removal of a staged blob that is not promoted. -/
def BlobSource.discardStaged (source : BlobSource) (o : Outcome) (objs : Objects β) (leaf : β) :
    Objects β :=
  match source with
  | .inline _ => objs
  | .staged stagingKey => (leafDelete o objs leaf stagingKey).2

structure World (β : Type) where
  tables : Tables
  objects : Objects β

def World.empty : World β := ⟨Tables.empty, fun _ _ => none⟩

def reuseIdenticalBlob (oc : BlobOutcomes) (objs : Objects β) (contentKey : String) (leaf : β)
    (source : BlobSource) : Except CoreError Unit × Objects β :=
  if leafExists oc.existence objs leaf contentKey then
    (.ok (), source.discardStaged oc.discard objs leaf)
  else
    match source.materialize oc.materialize objs leaf contentKey with
    | (.error e, objs) => (.error e, source.discardStaged oc.discard objs leaf)
    | (.ok _, objs) => (.ok (), objs)

/-- The statements of the transaction: the count of the new hash and the tables to commit. -/
def newHashTables (t : Tables) (target : DedupTarget) (existingHash : Option String) :
    Except CoreError (ℤ × Tables) :=
  let (count, t) := t.upsertIndex target.contentHash target.contentKey target.size
  let t := t.upsertRef target.key target.contentHash
  match existingHash with
  | none => .ok (count, t)
  | some oldHash =>
    match t.releaseHash oldHash with
    | .error e => .error e
    | .ok (_, t) => .ok (count, t)

/-- The blob is written before the commit; on a failure the tables stay as they were. -/
def commitNewHash (oc : BlobOutcomes) (w : World β) (target : DedupTarget) (leaf : β)
    (existingHash : Option String) (source : BlobSource) : Except CoreError Unit × World β :=
  match newHashTables w.tables target existingHash with
  | .error e => (.error e, w)
  | .ok (count, t) =>
    if decide (count > 1) && leafExists oc.existence w.objects leaf target.contentKey then
      (.ok (), ⟨t, source.discardStaged oc.discard w.objects leaf⟩)
    else
      match source.materialize oc.materialize w.objects leaf target.contentKey with
      | (.error e, objs) => (.error e, { w with objects := source.discardStaged oc.discard objs leaf })
      | (.ok _, objs) => (.ok (), ⟨t, objs⟩)

def finalizeDedup (oc : BlobOutcomes) (w : World β) (target : DedupTarget) (backendName : String)
    (leaf : β) (source : BlobSource) : Except CoreError Unit × World β :=
  let existingHash := w.tables.refs.lookup target.key
  let (result, w) :=
    if existingHash = some target.contentHash then
      let (result, objs) := reuseIdenticalBlob oc w.objects target.contentKey leaf source
      (result, { w with objects := objs })
    else commitNewHash oc w target leaf existingHash source
  match result with
  | .error e => (.error e, w)
  | .ok _ =>
    (.ok (), { w with tables := w.tables.recordBackend target.key backendName target.size })

variable (r : Router β) (sha256Hex : Bytes → String)

def store (oc : BlobOutcomes) (w : World β) (key : String) (data : Bytes) (size : Option ℕ) :
    Except CoreError Unit × World β :=
  if (stagedDestination key).isSome then
    let (result, objs) := leafStore oc.stream w.objects (r.leafOf key) key data
    (result, { w with objects := objs })
  else
    let hash := sha256Hex data
    finalizeDedup oc w ⟨key, hash, contentKeyOf hash, size⟩ (r.backendNameForKey key)
      (r.leafOf key) (.inline data)

/-- The second half of `store_streaming`, and `promote`: a failure leaves nothing staged. -/
def finalizeStaged (oc : BlobOutcomes) (w : World β) (staged key : String)
    (outcome : StoreOutcome) : Except CoreError Unit × World β :=
  let leaf := r.leafOf key
  let target : DedupTarget :=
    ⟨key, outcome.contentHash, contentKeyOf outcome.contentHash, some outcome.size⟩
  match finalizeDedup oc w target (r.backendNameForKey key) leaf (.staged staged) with
  | (.error e, w) => (.error e, { w with objects := (leafDelete oc.cleanup w.objects leaf staged).2 })
  | (.ok _, w) => (.ok (), w)

def storeStreaming (oc : BlobOutcomes) (w : World β) (key uuid : String) (data : Bytes) :
    Except CoreError StoreOutcome × World β :=
  let outcome : StoreOutcome := ⟨sha256Hex data, data.length⟩
  if (stagedDestination key).isSome then
    match leafStore oc.stream w.objects (r.leafOf key) key data with
    | (.error e, objs) => (.error e, { w with objects := objs })
    | (.ok _, objs) => (.ok outcome, { w with objects := objs })
  else
    let leaf := r.leafOf key
    let stagingKey := stagingBlobKey uuid
    match leafStore oc.stream w.objects leaf stagingKey data with
    | (.error e, objs) =>
      (.error e, { w with objects := (leafDelete oc.cleanup objs leaf stagingKey).2 })
    | (.ok _, objs) =>
      match finalizeStaged r oc { w with objects := objs } stagingKey key outcome with
      | (.error e, w) => (.error e, w)
      | (.ok _, w) => (.ok outcome, w)

def promote (oc : BlobOutcomes) (w : World β) (staged key : String) (outcome : StoreOutcome) :
    Except CoreError Unit × World β :=
  finalizeStaged r oc w staged key outcome

/-- The recorded backend of a key, or the one routing assigns it to. -/
def legacyBackendFor (t : Tables) (key : String) : β :=
  ((t.storage.lookup key).bind fun row => r.backends row.backendName).getD (r.leafOf key)

def dedupContentKey (t : Tables) (key : String) : Option (String × β) :=
  (t.dedupRow r.defaultName key).bind fun row =>
    ((r.backends row.2.2).or (r.backends r.defaultName)).map fun leaf => (row.2.1, leaf)

/-- Where no blob is found the key itself is looked up, as before deduplication. -/
def retrieve (w : World β) (key : String) : Option Bytes × World β :=
  let legacy : Option Bytes × World β :=
    match w.objects (legacyBackendFor r w.tables key) key with
    | none => (none, w)
    | some data => (some data, { w with tables := w.tables.lazyUpdateSize key data.length })
  if (stagedDestination key).isSome then (w.objects (r.leafOf key) key, w)
  else
    match dedupContentKey r w.tables key with
    | none => legacy
    | some (contentKey, leaf) =>
      match w.objects leaf contentKey with
      | some data => (some data, w)
      | none => legacy

/-- Whether the blob goes too, with its content key and its backend's name. -/
def deleteDedupEntry (t : Tables) (key : String) :
    Except CoreError (Option (Bool × String × String) × Tables) :=
  match t.dedupRow r.defaultName key with
  | none => .ok (none, t)
  | some (contentHash, contentKey, blobBackendName) =>
    match (t.deleteRef key).releaseHash contentHash with
    | .error e => .error e
    | .ok (count, t) => .ok (some (decide (count ≤ 0), contentKey, blobBackendName), t)

def delete (oc : BlobOutcomes) (w : World β) (key : String) : Except CoreError Bool × World β :=
  if (stagedDestination key).isSome then
    let (result, objs) := leafDelete oc.deletion w.objects (r.leafOf key) key
    (result, { w with objects := objs })
  else
    match deleteDedupEntry r w.tables key with
    | .error e => (.error e, w)
    | .ok (some (shouldDeleteBlob, contentKey, blobBackendName), t) =>
      let objs :=
        if shouldDeleteBlob then
          (leafDelete oc.deletion w.objects (r.resolveBackend blobBackendName) contentKey).2
        else w.objects
      (.ok true, ⟨t.forgetBackend key, objs⟩)
    | .ok (none, t) =>
      match leafDelete oc.deletion w.objects (legacyBackendFor r t key) key with
      | (.error e, objs) => (.error e, ⟨t, objs⟩)
      | (.ok existed, objs) => (.ok existed, ⟨t.forgetBackend key, objs⟩)

/-- Delete one key after another; a failure is logged and the next key is taken. -/
def deleteKeys (oc : String → BlobOutcomes) (w : World β) (keys : List String) : World β :=
  keys.foldl (fun w key => (delete r (oc key) w key).2) w

def deleteByPrefix (oc : String → BlobOutcomes) (w : World β) (lead : String) :
    Except CoreError ℕ × World β :=
  let keys := w.tables.logicalKeysByPrefix lead
  (.ok keys.length, deleteKeys r oc w keys)

end Operations

end BatleHub.StorageRouter
