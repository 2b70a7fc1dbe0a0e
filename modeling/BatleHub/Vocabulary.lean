import Mathlib.Init

/-!
The words every later module speaks in: roles and callers, the tiers of the
resource hierarchy, the closed list of verbs, the registry kinds, the package
coordinate and the errors. Wire strings are the source's own, because digests
and messages are built from them.
-/
namespace BatleHub

/-- Declared from least to most privileged; the order is that of the variants. -/
inductive Role where
  | anonymous
  | user
  | admin
  deriving DecidableEq, Repr, Ord

namespace Role

def rank : Role → Nat
  | anonymous => 0
  | user => 1
  | admin => 2

def toString : Role → String
  | anonymous => "anonymous"
  | user => "user"
  | admin => "admin"

end Role

structure Identity where
  userId : Option String
  role : Role
  authProvider : Option String
  groups : List String
  deriving DecidableEq, Repr

namespace Identity

def hasRoleAtLeast (identity : Identity) (minimum : Role) : Bool :=
  decide (minimum.rank ≤ identity.role.rank)

end Identity

/-- The principal a decision is about. A resolved caller is the only form. -/
inductive Subject where
  | identity (id : Identity)
  deriving DecidableEq, Repr

def Subject.caller : Subject → Identity
  | .identity id => id

/-- Outermost first. The instance tier speaks for every registry. -/
inductive Tier where
  | instanceTier
  | registryTier
  | namespaceTier
  | packageTier
  | versionTier
  deriving DecidableEq, Repr

structure PackageId where
  registry : String
  name : String
  version : String
  artifact : Option String
  deriving DecidableEq, Repr

def PackageId.new (registry name version : String) : PackageId :=
  ⟨registry, name, version, none⟩

def PackageId.cacheKey (id : PackageId) : String :=
  match id.artifact with
  | some art => id.registry ++ "/" ++ id.name ++ "/" ++ id.version ++ "/" ++ art
  | none => id.registry ++ "/" ++ id.name ++ "/" ++ id.version

/-- The errors a modelled operation can answer with, with their texts. -/
inductive CoreError where
  | notFound (message : String)
  | notFoundWithheld (message : String)
  | storage (message : String)
  | registry (message : String)
  | database (message : String)
  | accessDenied (message : String)
  | conflict (message : String)
  | invalidInput (message : String)
  | payloadTooLarge (message : String)
  | integrityFailure (message : String)
  | config (message : String)
  | other (message : String)
  deriving DecidableEq, Repr

/-- Every verb of the vocabulary, in the source's order. -/
inductive Action where
  | releasesRead
  | releasesList
  | sourceRead
  | catalogueBrowse
  | upstreamsRead
  | releasesPublish
  | releasesOverwrite
  | releasesYank
  | releasesDelete
  | ownersRead
  | ownersWrite
  | packagesBlock
  | gatesExempt
  | statsRead
  | auditRead
  | quarantineRead
  | findingsRead
  | flagsRead
  | auditPurge
  | gdprErase
  | configRead
  | configWrite
  | systemRead
  | systemWrite
  | blocksRead
  | blocksWrite
  | authzRead
  | grantsRead
  | grantsWrite
  | cacheEvict
  | cacheWarm
  | quotaRead
  | quotaWrite
  | retentionRun
  | tombstonesRead
  | packagesRead
  | npmDistTagsWrite
  | openvsxNamespaceClaim
  | terraformSigningKeysWrite
  | jetbrainsChannelAssign
  | devfileStackClaim
  deriving DecidableEq, Repr

/-- The wire form: what a config file and a message spell. -/
def Action.asStr : Action → String
  | .releasesRead => "releases:read"
  | .releasesList => "releases:list"
  | .sourceRead => "source:read"
  | .catalogueBrowse => "catalogue:browse"
  | .upstreamsRead => "upstreams:read"
  | .releasesPublish => "releases:publish"
  | .releasesOverwrite => "releases:overwrite"
  | .releasesYank => "releases:yank"
  | .releasesDelete => "releases:delete"
  | .ownersRead => "owners:read"
  | .ownersWrite => "owners:write"
  | .packagesBlock => "packages:block"
  | .gatesExempt => "gates:exempt"
  | .statsRead => "stats:read"
  | .auditRead => "audit:read"
  | .quarantineRead => "quarantine:read"
  | .findingsRead => "findings:read"
  | .flagsRead => "flags:read"
  | .auditPurge => "audit:purge"
  | .gdprErase => "gdpr:erase"
  | .configRead => "config:read"
  | .configWrite => "config:write"
  | .systemRead => "system:read"
  | .systemWrite => "system:write"
  | .blocksRead => "blocks:read"
  | .blocksWrite => "blocks:write"
  | .authzRead => "authz:read"
  | .grantsRead => "grants:read"
  | .grantsWrite => "grants:write"
  | .cacheEvict => "cache:evict"
  | .cacheWarm => "cache:warm"
  | .quotaRead => "quota:read"
  | .quotaWrite => "quota:write"
  | .retentionRun => "retention:run"
  | .tombstonesRead => "tombstones:read"
  | .packagesRead => "packages:read"
  | .npmDistTagsWrite => "npm:dist-tags:write"
  | .openvsxNamespaceClaim => "openvsx:namespace:claim"
  | .terraformSigningKeysWrite => "terraform:signing-keys:write"
  | .jetbrainsChannelAssign => "jetbrains:channel:assign"
  | .devfileStackClaim => "devfile:stack:claim"

inductive RegistryKind where
  | github
  | forgejo
  | gitlab
  | cargo
  | npm
  | openvsx
  | goproxy
  | pypi
  | conda
  | composer
  | vscodeMarketplace
  | maven
  | terraform
  | rubygems
  | nuget
  | deb
  | rpm
  | pacman
  | apk
  | jetbrains
  | jetbrainsMarketplace
  | generic
  | nodedist
  | sdkman
  | rustup
  | galaxy
  | nix
  | devfile
  | helm
  deriving DecidableEq, Repr

def RegistryKind.asStr : RegistryKind → String
  | .github => "github"
  | .forgejo => "forgejo"
  | .gitlab => "gitlab"
  | .cargo => "cargo"
  | .npm => "npm"
  | .openvsx => "openvsx"
  | .goproxy => "goproxy"
  | .pypi => "pypi"
  | .conda => "conda"
  | .composer => "composer"
  | .vscodeMarketplace => "vscode-marketplace"
  | .maven => "maven"
  | .terraform => "terraform"
  | .rubygems => "rubygems"
  | .nuget => "nuget"
  | .deb => "deb"
  | .rpm => "rpm"
  | .pacman => "pacman"
  | .apk => "apk"
  | .jetbrains => "jetbrains"
  | .jetbrainsMarketplace => "jetbrains-marketplace"
  | .generic => "generic"
  | .nodedist => "nodedist"
  | .sdkman => "sdkman"
  | .rustup => "rustup"
  | .galaxy => "galaxy"
  | .nix => "nix"
  | .devfile => "devfile"
  | .helm => "helm"

end BatleHub
