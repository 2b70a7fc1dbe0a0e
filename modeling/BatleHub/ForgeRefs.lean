import BatleHub.ForgeCoordinates
import BatleHub.Integrity
import BatleHub.LocalPackages

/-!
What a git ref resolved to, and what is made of it (`entities/forge.rs`,
`services/forge_refs.rs`). The resolution rides in `extra.forge` of the metadata, and the
findings read it back from there.
-/
namespace BatleHub.Forge

open Lib
open LocalPackages (DateTime Json)

/-- The kind of ref that a request named, once resolved. -/
inductive RefKind where
  | commit
  | tag
  | branch
  deriving DecidableEq, Repr

namespace RefKind

def asStr : RefKind → String
  | .commit => "commit"
  | .tag => "tag"
  | .branch => "branch"

def parse (s : String) : Option RefKind :=
  if s = "commit" then some .commit
  else if s = "tag" then some .tag
  else if s = "branch" then some .branch
  else none

theorem parse_asStr (kind : RefKind) : parse kind.asStr = some kind := by
  cases kind <;> decide

end RefKind

inductive RefAction where
  | warn
  | deny
  deriving DecidableEq, Repr

/-- Durations in the units of an instant, here nanoseconds. -/
structure ForgeRefsPolicy where
  branchTtl : ℕ
  tagTtl : ℕ
  mutableRefs : RefAction
  tagMoved : RefAction
  frozen : Bool
  deriving DecidableEq, Repr

def ForgeRefsPolicy.ttlFor (policy : ForgeRefsPolicy) : RefKind → Option ℕ
  | .commit => none
  | .tag => some policy.tagTtl
  | .branch => some policy.branchTtl

/-- A duration as the time library has it: the largest is `i64::MAX` milliseconds, and a
longer one becomes none at all. -/
def fromStd (ttl : ℕ) : ℤ := if ttl ≤ (2 ^ 63 - 1) * 10 ^ 6 then ttl else 0

/-- A ref, resolved. -/
structure ResolvedRef where
  requested : String
  kind : RefKind
  sha : String
  resolvedAt : DateTime
  previous : Option String
  objectDate : Option DateTime
  publisher : Option String
  deriving DecidableEq, Repr

/-- A remembered resolution. -/
structure StoredRefResolution where
  kind : RefKind
  sha : String
  resolvedAt : DateTime
  previous : Option String
  deriving DecidableEq, Repr

/-- A forge's answer. A commit has a name. -/
structure ResolvedTarget where
  kind : RefKind
  sha : String
  objectDate : Option DateTime
  publisher : Option String
  sha_ne : sha ≠ ""

def UNKNOWN_TAG : String := "unknown"

/-- The ref that a coordinate names, where it names one that is resolved. -/
def ForgeCoordinate.gitRef (c : ForgeCoordinate) : Option String :=
  match c.kind with
  | .listing => none
  | .asset tag _ => if tag = UNKNOWN_TAG then none else some tag
  | .release tag => some tag
  | .archive gitRef _ => some gitRef
  | .raw gitRef _ => some gitRef

def ForgeCoordinate.isAsset (c : ForgeCoordinate) : Bool :=
  match c.kind with
  | .asset _ _ => true
  | _ => false

/-- The fields of the metadata that the findings and the overlay read. -/
structure PackageMetadata where
  id : PackageId
  publishedAt : Option DateTime
  extra : Json

def FORGE_EXTRA_KEY : String := "forge"
def FORGE_REF_KIND : String := "ref_kind"
def FORGE_RESOLVED_COMMIT : String := "resolved_commit"
def FORGE_PREVIOUS_COMMIT : String := "previous_commit"
def FORGE_REQUESTED_REF : String := "requested_ref"
def FORGE_ASSET_DIGEST : String := "asset_digest"

/-- The forge's part of `extra`, where it is an object. -/
def forgeObject (extra : Json) : Option Json := (extra.get FORGE_EXTRA_KEY).filter Json.isObject

/-- The publisher stays, where one is named already. -/
def withPublisher (publisher : Option String) (forge : Json) : Json :=
  match publisher with
  | none => forge
  | some p =>
    match forge.get "publisher" with
    | some _ => forge
    | none => forge.insertField "publisher" (.string p)

def forgeEntries (resolved : ResolvedRef) (forge : Json) : Json :=
  let forge := forge.insertField "ref_kind" (.string resolved.kind.asStr)
  let forge := forge.insertField "requested_ref" (.string resolved.requested)
  let forge := forge.insertField "resolved_commit" (.string resolved.sha)
  let forge := forge.insertField "previous_commit" ((resolved.previous.map Json.string).getD .null)
  withPublisher resolved.publisher forge

/-- The resolution put on the metadata. What is no object is kept under `upstream`. -/
def overlayForgeMetadata (metadata : PackageMetadata) (resolved : ResolvedRef) : PackageMetadata :=
  let forge := forgeEntries resolved ((forgeObject metadata.extra).getD Json.emptyObject)
  { id := metadata.id
    publishedAt := metadata.publishedAt.orElse fun _ => resolved.objectDate
    extra :=
      match metadata.extra with
      | .object fields => (Json.object fields).insertField FORGE_EXTRA_KEY forge
      | .null => Json.emptyObject.insertField FORGE_EXTRA_KEY forge
      | other =>
        (Json.emptyObject.insertField "upstream" other).insertField FORGE_EXTRA_KEY forge }

/-- The codes that the findings about a ref carry. -/
inductive ReasonCode where
  | mutableRef
  | tagMoved
  | assetReplaced
  deriving DecidableEq, Repr

structure RefFinding where
  code : ReasonCode
  action : RefAction
  message : String
  deriving DecidableEq, Repr

section Findings
variable (policy : ForgeRefsPolicy) (asked resolved : String)

def mutableRefFinding (kind : Option RefKind) : List RefFinding :=
  if kind = some .branch then
    [⟨.mutableRef, policy.mutableRefs,
      "MUTABLE_REF: '" ++ asked ++ "' is a branch, served at commit " ++ resolved ++
        "; what it names can change under the same coordinate"⟩]
  else []

def tagMovedFinding (kind : Option RefKind) (previous : Option String) : List RefFinding :=
  if kind = some .tag then
    match previous.filter fun p => decide (p ≠ "") && decide (p ≠ resolved) with
    | some prev =>
      [⟨.tagMoved, policy.tagMoved,
        "TAG_MOVED: tag '" ++ asked ++ "' now resolves to " ++ resolved ++ ", previously " ++ prev⟩]
    | none => []
  else []

/-- The forge's own digest of an asset against that of the cached bytes. -/
def assetReplacedFinding (isAsset : Bool) (upstream cached : Option String) : List RefFinding :=
  match isAsset, upstream, cached with
  | true, some upstream, some cached =>
    let upstreamHex :=
      Integrity.toAsciiLowercase (((Texts.rsplitOnce upstream ':').map Prod.snd).getD upstream)
    if upstreamHex ≠ "" ∧ upstreamHex ≠ Integrity.toAsciiLowercase cached then
      [⟨.assetReplaced, policy.tagMoved,
        "ASSET_REPLACED: the asset now has digest " ++ upstreamHex ++
          ", the bytes cached under this coordinate hash to " ++ cached⟩]
    else []
  | _, _, _ => []

end Findings

/-- What the ref makes of the request. -/
def refFindings (policy : ForgeRefsPolicy) (metadata : PackageMetadata)
    (cachedDigest : Option String) : List RefFinding :=
  match ForgeCoordinate.fromPackageId metadata.id, forgeObject metadata.extra with
  | some coord, some forge =>
    let strAt := fun key => (forge.get key).bind Json.asStr
    let kind := (strAt FORGE_REF_KIND).bind RefKind.parse
    let resolved := (strAt FORGE_RESOLVED_COMMIT).getD ""
    let previous := strAt FORGE_PREVIOUS_COMMIT
    let asked := ((strAt FORGE_REQUESTED_REF).orElse fun _ => coord.gitRef).getD "?"
    mutableRefFinding policy asked resolved kind ++
      tagMovedFinding policy asked resolved kind previous ++
      assetReplacedFinding policy coord.isAsset (strAt FORGE_ASSET_DIGEST) cachedDigest
  | _, _ => []

section Overlay

theorem lookup_filter_ne {fields : List (String × Json)} {key key' : String} (h : key' ≠ key) :
    (fields.filter fun f => decide (f.1 ≠ key)).lookup key' = fields.lookup key' := by
  induction fields with
  | nil => rfl
  | cons f rest ih =>
    obtain ⟨k, v⟩ := f
    by_cases hk : k = key
    · subst hk
      rw [List.filter_cons_of_neg (by simp), ih, List.lookup_cons, beq_false_of_ne h]
    · rw [List.filter_cons_of_pos (by simpa using hk), List.lookup_cons, List.lookup_cons, ih]

theorem lookup_filter_self (fields : List (String × Json)) (key : String) :
    (fields.filter fun f => decide (f.1 ≠ key)).lookup key = none := by
  rw [List.lookup_eq_none_iff]
  intro f hf
  have hne := of_decide_eq_true (List.mem_filter.mp hf).2
  exact bne_iff_ne.mpr (Ne.symm hne)

theorem get_insertField_self {j : Json} (h : j.isObject = true) (key : String) (value : Json) :
    (j.insertField key value).get key = some value := by
  cases j with
  | object fields =>
    unfold Json.insertField Json.get
    dsimp only
    rw [List.lookup_append, lookup_filter_self, Option.none_or, List.lookup_cons, beq_self_eq_true]
  | _ => cases h

theorem get_insertField_ne {j : Json} {key key' : String} (h : key' ≠ key) (value : Json) :
    (j.insertField key value).get key' = j.get key' := by
  cases j with
  | object fields =>
    unfold Json.insertField Json.get
    dsimp only
    rw [List.lookup_append, lookup_filter_ne h, List.lookup_cons, beq_false_of_ne h,
      List.lookup_nil, Option.or_none]
  | _ => rfl

theorem isObject_insertField (j : Json) (key : String) (value : Json) :
    (j.insertField key value).isObject = j.isObject := by
  cases j <;> rfl

theorem isObject_withPublisher (publisher : Option String) (forge : Json) :
    (withPublisher publisher forge).isObject = forge.isObject := by
  unfold withPublisher
  cases publisher with
  | none => rfl
  | some p =>
    dsimp only
    cases forge.get "publisher" with
    | some v => rfl
    | none => exact isObject_insertField _ _ _

theorem get_withPublisher (publisher : Option String) (forge : Json) {key : String}
    (hkey : key ≠ "publisher") : (withPublisher publisher forge).get key = forge.get key := by
  unfold withPublisher
  cases publisher with
  | none => rfl
  | some p =>
    dsimp only
    cases forge.get "publisher" with
    | some v => rfl
    | none => exact get_insertField_ne hkey _

/-- The entries of a resolution, read back. -/
theorem get_forgeEntries (resolved : ResolvedRef) {forge : Json} (h : forge.isObject = true) :
    (forgeEntries resolved forge).isObject = true ∧
    (forgeEntries resolved forge).get "ref_kind" = some (.string resolved.kind.asStr) ∧
    (forgeEntries resolved forge).get "resolved_commit" = some (.string resolved.sha) ∧
    (forgeEntries resolved forge).get "previous_commit" =
      some ((resolved.previous.map Json.string).getD .null) := by
  unfold forgeEntries
  dsimp only
  refine ⟨?_, ?_, ?_, ?_⟩
  · rw [isObject_withPublisher]
    simpa only [isObject_insertField] using h
  · rw [get_withPublisher _ _ (by decide), get_insertField_ne (by decide),
      get_insertField_ne (by decide), get_insertField_ne (by decide), get_insertField_self h]
  · rw [get_withPublisher _ _ (by decide), get_insertField_ne (by decide),
      get_insertField_self (by simpa only [isObject_insertField] using h)]
  · rw [get_withPublisher _ _ (by decide),
      get_insertField_self (by simpa only [isObject_insertField] using h)]

theorem isObject_forgeObject (extra : Json) :
    ((forgeObject extra).getD Json.emptyObject).isObject = true := by
  unfold forgeObject
  cases extra.get FORGE_EXTRA_KEY with
  | none => rfl
  | some j =>
    cases hj : j.isObject with
    | false =>
      rw [Option.filter_some, hj]
      rfl
    | true =>
      rw [Option.filter_some, hj]
      exact hj

/-- The overlay carries the entries of the resolution. -/
theorem forgeObject_overlay (metadata : PackageMetadata) (resolved : ResolvedRef) :
    forgeObject (overlayForgeMetadata metadata resolved).extra =
      some (forgeEntries resolved ((forgeObject metadata.extra).getD Json.emptyObject)) := by
  have hobject := (get_forgeEntries resolved (isObject_forgeObject metadata.extra)).1
  have hget : ((overlayForgeMetadata metadata resolved).extra).get FORGE_EXTRA_KEY =
      some (forgeEntries resolved ((forgeObject metadata.extra).getD Json.emptyObject)) := by
    unfold overlayForgeMetadata
    dsimp only
    cases metadata.extra <;> exact get_insertField_self rfl _ _
  calc forgeObject (overlayForgeMetadata metadata resolved).extra
      = (some (forgeEntries resolved ((forgeObject metadata.extra).getD Json.emptyObject))).filter
          Json.isObject := congrArg (Option.filter Json.isObject) hget
    _ = some (forgeEntries resolved ((forgeObject metadata.extra).getD Json.emptyObject)) := by
        rw [Option.filter_some, if_pos hobject]

end Overlay

/-- The ref resolves elsewhere than it did. -/
def ResolvedRef.Moved (r : ResolvedRef) : Prop := ∃ p ∈ r.previous, p ≠ "" ∧ p ≠ r.sha

instance (r : ResolvedRef) : Decidable r.Moved :=
  inferInstanceAs (Decidable (∃ p ∈ r.previous, _))

theorem tagMovedFinding_of_ne (policy : ForgeRefsPolicy) (asked : String) {resolved p : String}
    (hne : p ≠ "") (hsha : p ≠ resolved) :
    tagMovedFinding policy asked resolved (some .tag) (some p) =
      [⟨.tagMoved, policy.tagMoved,
        "TAG_MOVED: tag '" ++ asked ++ "' now resolves to " ++ resolved ++ ", previously " ++ p⟩] := by
  unfold tagMovedFinding
  have hfilter : (some p).filter (fun q => decide (q ≠ "") && decide (q ≠ resolved)) = some p := by
    rw [Option.filter_some, if_pos]
    rw [Bool.and_eq_true, decide_eq_true_eq, decide_eq_true_eq]
    exact ⟨hne, hsha⟩
  rw [if_pos rfl, hfilter]

/-- A tag that moved is found, at whatever coordinate of a forge it rides on. -/
theorem tagMoved_of_moved (policy : ForgeRefsPolicy) {metadata : PackageMetadata}
    (cachedDigest : Option String) {r : ResolvedRef} (hmoved : r.Moved) (hkind : r.kind = .tag)
    (hcoord : (ForgeCoordinate.fromPackageId metadata.id).isSome = true) :
    ∃ f ∈ refFindings policy (overlayForgeMetadata metadata r) cachedDigest,
      f.code = .tagMoved ∧ f.action = policy.tagMoved := by
  obtain ⟨p, hp, hne, hsha⟩ := hmoved
  obtain ⟨coord, hcoord⟩ := Option.isSome_iff_exists.mp hcoord
  obtain ⟨-, hgetkind, hgetsha, hgetprevious⟩ :=
    get_forgeEntries r (isObject_forgeObject metadata.extra)
  have hid : (overlayForgeMetadata metadata r).id = metadata.id := rfl
  have hprevious : r.previous = some p := hp
  unfold refFindings
  rw [hid, hcoord, forgeObject_overlay]
  dsimp only [FORGE_REF_KIND, FORGE_RESOLVED_COMMIT, FORGE_PREVIOUS_COMMIT]
  rw [hgetkind, hgetsha, hgetprevious, hprevious, hkind]
  simp only [Option.map_some, Option.getD_some, Option.bind_some, Json.asStr, RefKind.parse_asStr]
  rw [tagMovedFinding_of_ne policy _ hne hsha]
  exact ⟨_, List.mem_append_left _ (List.mem_append_right _ List.mem_cons_self), rfl, rfl⟩

end BatleHub.Forge
