import BatleHub.GrantChain
import BatleHub.ReadableScopes
import BatleHub.LocalPackages
import BatleHub.Lib.AssocMap

/-!
Version listings and their grant filter (`services/local_registry/read.rs`). A
whole-registry walk fetches the grant rows once and hands them down instead of
querying for each package. The filter is one predicate on a version, so two row
sets give one listing when they have the same rows under the package; an empty
set stands for "nothing to filter", whether nothing was there or nothing was
fetched.
-/
namespace BatleHub.VersionListings

open Grants Resolution GrantTable GrantChain ReadableScopes LocalPackages Lib.AssocMap Lib.Texts

/-- What a listing reads. Visibility, blocks, beta membership and the version
grammar are answered elsewhere and may be anything here. -/
structure LocalRegistryService where
  hot : HotConfig
  today : NaiveDate
  hasDocumentCache : Bool
  getVersions : String → String → Except CoreError (List PublishedPackage)
  listPackageNames : String → Except CoreError (List String)
  checkVisibility : String → String → Identity → Except CoreError Unit
  blockedVersions : Option (String → String → Except CoreError (List String))
  betaChannel : String → Option (Identity → Except CoreError Bool)
  isPrerelease : String → Bool
  toLowercase : String → String

/-- Every stored grant row of one registry, fetched once for a whole document. -/
structure RegistryGrantRows where
  package : List StoredGrant
  version : List StoredGrant
  deriving DecidableEq, Repr

namespace RegistryGrantRows

def default : RegistryGrantRows := ⟨[], []⟩

def versionsOf (rows : RegistryGrantRows) (package : String) : List StoredGrant :=
  rows.version.filter fun g => startsWith g.nodeKey (package ++ "@")

def packageRows (rows : RegistryGrantRows) (package : String) : List StoredGrant :=
  rows.package.filter fun g => decide (g.nodeKey = package)

end RegistryGrantRows

section Service
variable (svc : LocalRegistryService)

/-- Both registry-wide reads, the package rows first. -/
def fetchRows (repo : GrantRepository) (registry : String) : Except CoreError RegistryGrantRows :=
  match repo.packageGrantsInRegistry registry with
  | .error e => .error e
  | .ok package =>
    match repo.versionGrantsInRegistry registry with
    | .error e => .error e
    | .ok version => .ok ⟨package, version⟩

/-- The read set of a caller and the rows it was built from. The fast path
fetches nothing. -/
def readablePackages (registry : String) (identity : Identity) :
    Except CoreError (Readable × RegistryGrantRows) :=
  match svc.hot.grants registry with
  | none => .ok (.everything, .default)
  | some grants =>
    let subject := Subject.identity identity
    let readable := Readable.fromRegistry svc.hot.instanceNode grants .releasesRead subject
    match readable.needsPackageGrants, svc.hot.grantRepo with
    | true, some repo =>
      match fetchRows repo registry with
      | .error e => .error e
      | .ok rows =>
        let readable := readable.withPackageGrants
          (rows.package.map fun g => (g.nodeKey, g.subject, g.actions)) .releasesRead subject
        let keys := (rows.version.filter fun g =>
          decide (Action.releasesRead ∈ g.actions) && g.subject.matchesSubject subject).map
            fun g => g.nodeKey
        .ok (readable.withVersionGrants keys, rows)
    | _, _ => .ok (readable, .default)

/-- The rows `search_local` hands down: a failed fetch leaves the default. -/
def searchRows (registry : String) (identity : Identity) : RegistryGrantRows :=
  match readablePackages svc registry identity with
  | .ok answer => answer.2
  | .error _ => .default

/-- The rows a whole-registry document hands down: a failed fetch fails it. -/
def documentRows (registry : String) (identity : Identity) : Except CoreError RegistryGrantRows :=
  match svc.hot.grants registry with
  | none => .ok .default
  | some _ =>
    if svc.hasDocumentCache then
      match svc.hot.grantRepo with
      | none => .ok .default
      | some repo => fetchRows repo registry
    else
      match readablePackages svc registry identity with
      | .error e => .error e
      | .ok answer => .ok answer.2

def checkReadAccess (registry name : String) (identity : Identity) : Except CoreError Unit :=
  match authorizeListing svc.hot svc.today (PackageId.new registry name "latest") identity
      .releasesList with
  | .error e => .error e
  | .ok () => svc.checkVisibility registry name identity

def filterUnlisted (versions : List PublishedPackage) : List PublishedPackage :=
  versions.filter fun p => !p.unlisted

/-- Fails open: without an answer nothing is dropped. -/
def filterBlocked (registry name : String) (versions : List PublishedPackage) :
    List PublishedPackage :=
  match svc.blockedVersions with
  | none => versions
  | some repo =>
    match repo registry name with
    | .error _ => versions
    | .ok blocked => versions.filter fun p => !decide (p.version ∈ blocked)

def filterForIdentity (registry : String) (versions : List PublishedPackage)
    (identity : Identity) : Except CoreError (List PublishedPackage) :=
  match svc.betaChannel registry with
  | none => .ok versions
  | some isMember =>
    match isMember identity with
    | .error e => .error e
    | .ok true => .ok versions
    | .ok false => .ok (versions.filter fun p => !svc.isPrerelease p.version)

/-- The version rows of a package: prefetched, or one query. -/
def versionRows (repo : GrantRepository) (registry name : String) :
    Option RegistryGrantRows → Except CoreError (List StoredGrant)
  | some pre => .ok (pre.versionsOf name)
  | none => repo.versionGrantsForPackage registry name

def packageNodeRows (repo : GrantRepository) (registry name : String) :
    Option RegistryGrantRows → Except CoreError (List StoredGrant)
  | some pre => .ok (pre.packageRows name)
  | none => repo.grantsOnNode registry .package name

def subjectRows (rows : List StoredGrant) : List (SubjectMatcher × List Action) :=
  rows.map fun g => (g.subject, g.actions)

/-- The package-tier node, or none when nothing is written on it. -/
def packageTierNode (repo : GrantRepository) (registry name : String)
    (prefetched : Option RegistryGrantRows) : Except CoreError (Option Node) :=
  match packageNodeRows repo registry name prefetched with
  | .error e => .error e
  | .ok rows => .ok (Node.ofRows .packageTier ("package:" ++ name) (subjectRows rows))

/-- Grant a row into the map of the version it is on. -/
def pushVersionRow (name : String) (maps : Assoc String GrantMap) (g : StoredGrant) :
    Assoc String GrantMap :=
  match stripPrefix g.nodeKey (name ++ "@") with
  | none => maps
  | some v => maps.insert v (((maps.lookup v).getD GrantMap.new).grant g.subject g.actions)

/-- Every row of a version folded into one map. -/
def byVersion (name : String) (rows : List StoredGrant) : Assoc String GrantMap :=
  rows.foldl (pushVersionRow name) ∅

/-- Drop the versions this caller holds no `releases:read` on. Fails closed on a
repository error. -/
def filterByGrants (registry name : String) (versions : List PublishedPackage)
    (identity : Identity) (prefetched : Option RegistryGrantRows) :
    Except CoreError (List PublishedPackage) :=
  if versions.isEmpty then .ok versions
  else
    match svc.hot.grantRepo, svc.hot.grants registry with
    | some repo, some grants =>
      let subject := Subject.identity identity
      let path := resolutionPath svc.hot grants name
      if (resolve path subject).holds .releasesRead then .ok versions
      else
        match versionRows repo registry name prefetched with
        | .error e => .error e
        | .ok rows =>
          if rows.isEmpty then .ok versions
          else
            match packageTierNode repo registry name prefetched with
            | .error e => .error e
            | .ok packageNode =>
              let path := path ++ packageNode.toList
              if packageNode.isSome && (resolve path subject).holds .releasesRead then .ok versions
              else
                .ok (versions.filter fun p =>
                  (resolve (path ++ (((byVersion name rows).lookup p.version).map fun map =>
                    Node.new .versionTier ("version:" ++ p.version) (some map)).toList)
                    subject).holds .releasesRead)
    | _, _ => .ok versions

/-- The versions every filter before the grants leaves. -/
def visibleBeforeGrants (registry name : String) (identity : Identity) :
    Except CoreError (List PublishedPackage) :=
  match checkReadAccess svc registry name identity with
  | .error e => .error e
  | .ok () =>
    match svc.getVersions registry name with
    | .error e => .error e
    | .ok versions =>
      filterForIdentity svc registry (filterBlocked svc registry name (filterUnlisted versions))
        identity

structure VisibleVersions where
  versions : List PublishedPackage
  withheldByGrants : Bool
  deriving Repr

def loadVisibleVersionsReportingIn (registry name : String) (identity : Identity)
    (rows : Option RegistryGrantRows) : Except CoreError VisibleVersions :=
  match visibleBeforeGrants svc registry name identity with
  | .error e => .error e
  | .ok before =>
    match filterByGrants svc registry name before identity rows with
    | .error e => .error e
    | .ok versions => .ok ⟨versions, !before.isEmpty && versions.isEmpty⟩

def loadVisibleVersionsIn (registry name : String) (identity : Identity)
    (rows : Option RegistryGrantRows) : Except CoreError (List PublishedPackage) :=
  match loadVisibleVersionsReportingIn svc registry name identity rows with
  | .error e => .error e
  | .ok visible => .ok visible.versions

structure SearchHit where
  name : String
  version : String
  deriving DecidableEq, Repr

def containsText (s q : String) : Bool := s.toList.tails.any fun tail => q.toList.isPrefixOf tail

/-- The walk over the names: a name that fails or shows nothing is skipped, and
the walk stops once `limit` hits are there. -/
def searchWalk (registry q : String) (limit : ℕ) (identity : Identity) (rows : RegistryGrantRows) :
    List String → List SearchHit → List SearchHit
  | [], out => out
  | name :: rest, out =>
    if !(q = "") && !containsText (svc.toLowercase name) q then
      searchWalk registry q limit identity rows rest out
    else
      match loadVisibleVersionsIn svc registry name identity (some rows) with
      | .error _ => searchWalk registry q limit identity rows rest out
      | .ok versions =>
        match versions.getLast? with
        | none => searchWalk registry q limit identity rows rest out
        | some p =>
          let out := out ++ [⟨name, p.version⟩]
          if limit ≤ out.length then out
          else searchWalk registry q limit identity rows rest out

/-- The published names matching the query, with the newest version the caller
may see. -/
def searchLocal (registry query : String) (limit : ℕ) (identity : Identity) : List SearchHit :=
  let names := match svc.listPackageNames registry with
    | .ok names => names
    | .error _ => []
  searchWalk svc registry (svc.toLowercase query) limit identity
    (searchRows svc registry identity) names []

end Service

end BatleHub.VersionListings
