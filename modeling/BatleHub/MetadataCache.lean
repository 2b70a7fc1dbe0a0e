import BatleHub.Integrity
import BatleHub.Lib.AssocMap
import BatleHub.Lib.Runs
import BatleHub.LocalPackages
import BatleHub.Vocabulary

/-!
The metadata cache of one registry (`proxy/resolve.rs`, `proxy/handle.rs`): the metadata of
a version and the version documents of a package, under keys of two namespaces. Each
entry expires one TTL after it was written. A resolution that finds no metadata reads it
from a cached document, and writes what it read.
-/
namespace BatleHub.MetadataCache

open LocalPackages (DateTime)
open Lib.AssocMap

section Directives

/-- `str::trim`. -/
def trim (text : List Char) : List Char :=
  ((text.dropWhile Lib.Texts.isWhiteSpace).reverse.dropWhile Lib.Texts.isWhiteSpace).reverse

/-- The `no-store` directive of `parse_cache_control`. -/
def noStoreDirective (header : String) : Bool :=
  (header.toList.splitOn ',').any fun token =>
    decide (Integrity.toAsciiLowercase (String.ofList (trim token)) = "no-store")

end Directives

section Entries

structure PackageMetadata where
  id : PackageId
  cacheControl : Option String
  deriving DecidableEq, Repr

def PackageMetadata.noStore (m : PackageMetadata) : Bool :=
  match m.cacheControl with
  | some header => noStoreDirective header
  | none => false

inductive DocumentKind where
  | versions
  | secondary (discriminant : String)
  deriving DecidableEq, Repr

def DocumentKind.asStr : DocumentKind → String
  | .versions => "versions"
  | .secondary discriminant => discriminant

def proxyMetaKey (pkg : PackageId) : String := "meta:" ++ pkg.cacheKey

def versionDocumentKey (registry : String) (kind : DocumentKind) (name : String) : String :=
  "doc:" ++ registry ++ ":" ++ kind.asStr ++ ":" ++ name

/-- No key is in both namespaces, so each is a map of its own. -/
theorem proxyMetaKey_ne_versionDocumentKey (pkg : PackageId) (registry : String)
    (kind : DocumentKind) (name : String) :
    proxyMetaKey pkg ≠ versionDocumentKey registry kind name := by
  intro heq
  have hhead := congrArg (fun s : String => s.toList.head?) heq
  simp [proxyMetaKey, versionDocumentKey] at hhead

/-- What a metadata entry was made from: an upstream call, or a document and when that one
would have expired. -/
inductive Source where
  | upstream
  | document (expiresAt : Option DateTime)
  deriving DecidableEq, Repr

/-- An entry. `obtainedAt` is when the upstream answered what it holds; no code reads it
nor the source. -/
structure Entry (α : Type) where
  value : α
  expiresAt : Option DateTime
  obtainedAt : DateTime
  source : Source
  deriving DecidableEq, Repr

variable {α : Type}

def Entry.isExpired (e : Entry α) (now : DateTime) : Bool :=
  match e.expiresAt with
  | some exp => decide (exp < now)
  | none => false

/-- `CacheStore::get`. A store may also lose an entry, or not answer. -/
def getEntry (entries : Assoc String (Entry α)) (key : String) (now : DateTime) (held : Bool) :
    Option (Entry α) :=
  match entries.lookup key with
  | some e => if held && !e.isExpired now then some e else none
  | none => none

def getStale (entries : Assoc String (Entry α)) (key : String) (held : Bool) :
    Option (Entry α) :=
  if held then entries.lookup key else none

/-- `CacheStore::set`, at `now`. -/
def setEntry (entries : Assoc String (Entry α)) (key : String) (value : α) (now : DateTime)
    (ttl : Option ℕ) (obtainedAt : DateTime) (source : Source) : Assoc String (Entry α) :=
  entries.insert key ⟨value, ttl.map fun t => now + t, obtainedAt, source⟩

theorem getEntry_eq_some {entries : Assoc String (Entry α)} {key : String} {now : DateTime}
    {held : Bool} {e : Entry α} (h : getEntry entries key now held = some e) :
    entries.lookup key = some e ∧ ∀ exp, e.expiresAt = some exp → now ≤ exp := by
  unfold getEntry at h
  cases hlookup : entries.lookup key with
  | none =>
    rw [hlookup] at h
    cases h
  | some e' =>
    rw [hlookup] at h
    dsimp only at h
    split_ifs at h with hlive
    obtain rfl := Option.some.inj h
    refine ⟨rfl, fun exp hexp => ?_⟩
    rw [Bool.and_eq_true, Entry.isExpired, hexp] at hlive
    exact not_lt.mp (by simpa using hlive.2)

end Entries

section Reads

structure RegistryPolicy where
  metadataTtl : Option ℕ
  serveStaleMetadata : Bool
  deriving DecidableEq, Repr

/-- Metadata or a document that was returned, when its upstream answered, and whether an
upstream call was made for it. -/
structure Answer where
  now : DateTime
  obtainedAt : DateTime
  upstreamCalled : Bool
  deriving DecidableEq, Repr

/-- The cache, and what was returned so far, which no code reads. -/
structure World (Document : Type) where
  metas : Assoc String (Entry PackageMetadata)
  documents : Assoc String (Entry Document)
  answers : List Answer

variable {Document : Type}

def World.initial : World Document := ⟨∅, ∅, []⟩

def World.answered (w : World Document) (now obtainedAt : DateTime) (upstreamCalled : Bool) :
    World Document :=
  { w with answers := w.answers ++ [⟨now, obtainedAt, upstreamCalled⟩] }

/-- What the ports answer a resolution. `held` says whether the store still has the entry. -/
structure ResolvePorts where
  cacheGet : Except CoreError Bool
  documentHeld : Bool
  cacheOnly : Bool
  upstream : Except CoreError PackageMetadata
  staleGet : Except CoreError Bool
  cacheSet : Except CoreError Unit
  deriving DecidableEq, Repr

structure DocumentPorts (Document : Type) where
  held : Bool
  upstream : Except CoreError Document
  staleHeld : Bool
  stored : Bool
  deriving DecidableEq, Repr

inductive ResolveError where
  | port (e : CoreError)
  | cache (message : String)
  deriving DecidableEq, Repr

def NOT_YET_RESOLVED : String := "not yet resolved"

variable (policy : RegistryPolicy)
  -- The client's reader of a listing document, for the kinds that have one.
  (resolveMetadataFromDocument : PackageId → Document → Option PackageMetadata)

/-- The metadata entry that a resolution is answered by. -/
def metaHit (w : World Document) (now : DateTime) (pkg : PackageId) (ports : ResolvePorts) :
    Option (Entry PackageMetadata) :=
  match ports.cacheGet with
  | .ok held => getEntry w.metas (proxyMetaKey pkg) now held
  | .error _ => none

/-- The metadata that a cached document gives, and the document's entry. -/
def resolveFromCachedDocument (w : World Document) (now : DateTime) (pkg : PackageId)
    (held : Bool) : Option (PackageMetadata × Entry Document) :=
  (getEntry w.documents (versionDocumentKey pkg.registry .versions pkg.name) now held).bind
    fun e => (resolveMetadataFromDocument pkg e.value).map fun m => (m, e)

def finishResolve (w : World Document) (now : DateTime) (pkg : PackageId) (m : PackageMetadata)
    (obtainedAt : DateTime) (source : Source) (cacheSet : Except CoreError Unit) :
    Except ResolveError (World Document) :=
  if m.noStore then .ok w
  else
    match cacheSet with
    | .error e => .error (.port e)
    | .ok _ =>
      .ok { w with
        metas := setEntry w.metas (proxyMetaKey pkg) m now policy.metadataTtl obtainedAt source }

/-- The end of both ways to produce a resolution. -/
def produced (w : World Document) (now : DateTime) (pkg : PackageId) (m : PackageMetadata)
    (obtainedAt : DateTime) (source : Source) (upstreamCalled : Bool)
    (cacheSet : Except CoreError Unit) : Except ResolveError PackageMetadata × World Document :=
  match finishResolve policy w now pkg m obtainedAt source cacheSet with
  | .ok w' => (.ok m, w'.answered now obtainedAt upstreamCalled)
  | .error e => (.error e, w)

/-- The stale entry that a failed upstream call is answered by. -/
def staleMetadata (w : World Document) (now : DateTime) (pkg : PackageId) (e : CoreError)
    (staleGet : Except CoreError Bool) : Except ResolveError PackageMetadata × World Document :=
  match policy.serveStaleMetadata, e with
  | true, .registry _ =>
    match staleGet with
    | .error e' => (.error (.port e'), w)
    | .ok held =>
      match getStale w.metas (proxyMetaKey pkg) held with
      | some entry => (.ok entry.value, w.answered now entry.obtainedAt true)
      | none => (.error (.port e), w)
  | _, _ => (.error (.port e), w)

/-- `resolve_metadata_inner`, taken at one instant. -/
def resolveMetadata (w : World Document) (now : DateTime) (pkg : PackageId)
    (ports : ResolvePorts) : Except ResolveError PackageMetadata × World Document :=
  match ports.cacheGet with
  | .error e => (.error (.port e), w)
  | .ok _ =>
    match metaHit w now pkg ports with
    | some entry => (.ok entry.value, w.answered now entry.obtainedAt false)
    | none =>
      match resolveFromCachedDocument resolveMetadataFromDocument w now pkg
          ports.documentHeld with
      | some (m, e) =>
        produced policy w now pkg m e.obtainedAt (.document e.expiresAt) false ports.cacheSet
      | none =>
        if ports.cacheOnly then (.error (.cache NOT_YET_RESOLVED), w)
        else
          match ports.upstream with
          | .ok m => produced policy w now pkg m now .upstream true ports.cacheSet
          | .error e => staleMetadata policy w now pkg e ports.staleGet

/-- `cached_version_document`, taken at one instant. -/
def cachedVersionDocument (w : World Document) (now : DateTime) (registry : String)
    (kind : DocumentKind) (name : String) (ports : DocumentPorts Document) :
    Except CoreError Document × World Document :=
  let key := versionDocumentKey registry kind name
  match getEntry w.documents key now ports.held with
  | some entry => (.ok entry.value, w.answered now entry.obtainedAt false)
  | none =>
    match ports.upstream with
    | .ok doc =>
      let w' := if ports.stored then
          { w with
            documents := setEntry w.documents key doc now policy.metadataTtl now .upstream }
        else w
      (.ok doc, w'.answered now now true)
    | .error e =>
      if policy.serveStaleMetadata then
        match getStale w.documents key ports.staleHeld with
        | some entry => (.ok entry.value, w.answered now entry.obtainedAt true)
        | none => (.error e, w)
      else (.error e, w)

inductive Event (Document : Type) where
  | resolve (now : DateTime) (pkg : PackageId) (ports : ResolvePorts)
  | readDocument (now : DateTime) (registry : String) (kind : DocumentKind) (name : String)
      (ports : DocumentPorts Document)

def step (w : World Document) : Event Document → World Document
  | .resolve now pkg ports => (resolveMetadata policy resolveMetadataFromDocument w now pkg ports).2
  | .readDocument now registry kind name ports =>
    (cachedVersionDocument policy w now registry kind name ports).2

def run (events : List (Event Document)) : World Document :=
  Lib.Runs.run (step policy resolveMetadataFromDocument) .initial events

end Reads

end BatleHub.MetadataCache
