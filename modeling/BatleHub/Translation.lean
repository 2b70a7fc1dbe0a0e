import BatleHub.Resolution

/-!
From `[registries.rbac]` to registry-tier grants (`services/authz/translate.rs`).
The three role lists and the group keys become subjects, both read verbs gain
the listing verb, and the authority no config block ever expressed is written
out. The list `groups` stands for a map: its keys are distinct and its order is
the map's iteration order.
-/
namespace BatleHub.Translation

open Grants Resolution Lib.Texts

/-- Whether a registry accepts publishes. -/
inductive WriteMode where
  | accepts
  | refuses
  deriving DecidableEq, Repr

structure ExploreFlags where
  anonymous : Bool
  user : Bool
  admin : Bool
  deriving DecidableEq, Repr

structure RbacSnapshot where
  anonymous : List Action
  user : List Action
  admin : List Action
  groups : List (String × List Action)
  explore : ExploreFlags
  groups_nodup : (groups.map Prod.fst).Nodup
  deriving Repr

structure NamespaceSpec where
  matchPrefix : String
  grants : Option GrantMap
  shadow : Option DryRun
  deriving DecidableEq, Repr

/-- Both read verbs gain `releases:list` together. -/
def withList (actions : List Action) : List Action :=
  if (Action.releasesRead ∈ actions ∨ Action.sourceRead ∈ actions) ∧
      Action.releasesList ∉ actions then
    actions ++ [.releasesList]
  else actions

/-- A group key, translated by shape: a bare key, a `*:` key and a provider key
match different things. -/
def groupSubject (key : String) : Except SubjectParseError SubjectMatcher :=
  let parts : GroupProvider × String :=
    match splitOnce key ':' with
    | some (p, name) => (if p = "*" then .any else .named p, name)
    | none => (.unprefixed, key)
  if parts.2 = "" then .error ⟨key⟩ else .ok (.group parts.1 parts.2)

def grantGroups (map : GrantMap) :
    List (String × List Action) → Except SubjectParseError GrantMap
  | [] => .ok map
  | (key, actions) :: rest =>
    match groupSubject key with
    | .error e => .error e
    | .ok subject => grantGroups (map.grant subject (withList actions)) rest

/-- The write authority every publishing registry had before grants. -/
def writeVerbs : List Action :=
  [.releasesPublish, .releasesOverwrite, .releasesYank, .releasesDelete]

/-- The verbs that were `require_admin`. -/
def adminVerbs : List Action :=
  [.packagesBlock, .ownersRead, .ownersWrite, .statsRead, .auditRead, .upstreamsRead]

def controlVerbs : List Action :=
  [.cacheEvict, .cacheWarm, .quotaRead, .quotaWrite, .retentionRun, .tombstonesRead,
    .packagesRead]

/-- One registry's `[registries.rbac]` as its registry-tier grants. -/
def translateRbac (rbac : RbacSnapshot) (writeMode : WriteMode) :
    Except SubjectParseError GrantMap :=
  let map := GrantMap.new
  let map := map.grant .anyone (withList rbac.anonymous)
  let map := map.grant (.role .user) (withList rbac.user)
  let map := map.grant (.role .admin) (withList rbac.admin)
  match grantGroups map rbac.groups with
  | .error e => .error e
  | .ok map =>
    let map := if writeMode = .accepts then map.grant (.role .user) writeVerbs else map
    let map := map.grant (.role .admin) adminVerbs
    let map := map.grant (.role .user) [.quarantineRead]
    let map := map.grant (.role .admin) [.quarantineRead, .findingsRead, .flagsRead]
    .ok (map.grant (.role .admin) controlVerbs)

/-- Which subjects reach the console: the flag and the proxy access together. -/
def exploreSubjects (rbac : RbacSnapshot) : List (SubjectMatcher × Bool) :=
  let hasAnonymous := !rbac.anonymous.isEmpty
  let hasUser := hasAnonymous || !rbac.user.isEmpty
  let hasAdmin := hasUser || !rbac.admin.isEmpty
  let hasGroup := !rbac.groups.isEmpty
  [(.anyone, (hasAnonymous || hasGroup) && rbac.explore.anonymous),
    (.role .user, (hasUser || hasGroup) && rbac.explore.user),
    (.role .admin, (hasAdmin || hasGroup) && rbac.explore.admin)]

/-- Union every entry of `explicit` on top of `map`. -/
def grantExplicit (map : GrantMap) : Option GrantMap → GrantMap
  | none => map
  | some explicit => map.grantAll explicit.entries

/-- A registry's whole grant hierarchy: the registry node and its namespaces. -/
def buildGrants (registry : String) (kind : RegistryKind) (rbac : RbacSnapshot)
    (explicit : Option GrantMap) (namespaces : List NamespaceSpec) (writeMode : WriteMode)
    (registryShadow : Option DryRun) : Except SubjectParseError RegistryGrants :=
  match translateRbac rbac writeMode with
  | .error e => .error e
  | .ok map =>
    let map := (exploreSubjects rbac).foldl
      (fun map s => if s.2 then map.grant s.1 [.catalogueBrowse] else map) map
    let map := grantExplicit map explicit
    .ok {
      kind := kind
      registry := (Node.new .registryTier ("registry:" ++ registry) (some map)).shadowed
        registryShadow
      namespaces := namespaces.map fun ns =>
        (ns.matchPrefix,
          (Node.new .namespaceTier ("namespace:" ++ ns.matchPrefix) ns.grants).shadowed
            ns.shadow)
    }

/-- The verbs `role:admin` holds over the whole instance. -/
def instanceVerbs : List Action :=
  [.configRead, .configWrite, .systemRead, .systemWrite, .blocksRead, .blocksWrite, .authzRead,
    .grantsRead, .grantsWrite, .cacheEvict, .cacheWarm, .quotaRead, .quotaWrite, .retentionRun,
    .tombstonesRead, .packagesRead, .auditRead, .auditPurge, .gdprErase, .statsRead,
    .packagesBlock, .flagsRead, .ownersRead, .ownersWrite, .releasesYank, .releasesDelete,
    .terraformSigningKeysWrite, .jetbrainsChannelAssign, .openvsxNamespaceClaim,
    .devfileStackClaim]

/-- The node above every registry. -/
def instanceNode (explicit : Option GrantMap) : Node :=
  Node.new .instanceTier "instance"
    (some (grantExplicit (GrantMap.new.grant (.role .admin) instanceVerbs) explicit))

theorem mem_withList (actions : List Action) (a : Action) :
    a ∈ withList actions ↔ a ∈ actions ∨
      (a = .releasesList ∧ (Action.releasesRead ∈ actions ∨ Action.sourceRead ∈ actions)) := by
  unfold withList
  split
  · rename_i h
    rw [List.mem_append, List.mem_singleton]
    exact or_congr_right ⟨fun ha => ⟨ha, h.1⟩, And.left⟩
  · rename_i h
    constructor
    · exact Or.inl
    · intro hcase
      rcases hcase with ha | ⟨rfl, hread⟩
      · exact ha
      · by_contra hlist
        exact h ⟨hread, hlist⟩

/-- What the group loop adds, when every key translates. -/
theorem grantGroups_gives (groups : List (String × List Action)) (map result : GrantMap)
    (h : grantGroups map groups = .ok result) (caller : Subject) (a : Action) :
    result.Gives caller a ↔ map.Gives caller a ∨
      ∃ e ∈ groups, ∃ s, groupSubject e.1 = .ok s ∧ s.matchesSubject caller = true ∧
        a ∈ withList e.2 := by
  induction groups generalizing map with
  | nil =>
    obtain rfl := Except.ok.inj h
    simp
  | cons e rest ih =>
    obtain ⟨key, actions⟩ := e
    cases hs : groupSubject key with
    | error err => simp [grantGroups, hs] at h
    | ok subject =>
      simp only [grantGroups, hs] at h
      rw [ih _ h, GrantMap.gives_grant, or_assoc, List.exists_mem_cons_iff]
      simp [hs]

theorem grantGroups_subjects (groups : List (String × List Action)) (map result : GrantMap)
    (h : grantGroups map groups = .ok result) :
    ∀ e ∈ groups, ∃ s, groupSubject e.1 = .ok s := by
  induction groups generalizing map with
  | nil => simp
  | cons e rest ih =>
    obtain ⟨key, actions⟩ := e
    cases hs : groupSubject key with
    | error err => simp [grantGroups, hs] at h
    | ok subject =>
      simp only [grantGroups, hs] at h
      intro e' he'
      rcases List.mem_cons.mp he' with rfl | he'
      · exact ⟨subject, hs⟩
      · exact ih _ h e' he'

theorem isSealed_grantExplicit (map : GrantMap) (explicit : Option GrantMap)
    (h : map.isSealed = false) : (grantExplicit map explicit).isSealed = false := by
  cases explicit with
  | none => exact h
  | some explicit => exact GrantMap.isSealed_grantAll map explicit.entries (Or.inl h)

theorem translateRbac_unsealed (rbac : RbacSnapshot) (writeMode : WriteMode) (map : GrantMap)
    (h : translateRbac rbac writeMode = .ok map) : map.isSealed = false := by
  unfold translateRbac at h
  cases hgroups : grantGroups (((GrantMap.new.grant .anyone (withList rbac.anonymous)).grant
      (.role .user) (withList rbac.user)).grant (.role .admin) (withList rbac.admin))
      rbac.groups with
  | error e => simp [hgroups] at h
  | ok granted =>
    simp only [hgroups, Except.ok.injEq] at h
    exact h ▸ GrantMap.isSealed_grant _ _ _

/-- The registry node of a built hierarchy is written and never a seal: the
translation always writes the administrator's verbs. -/
theorem buildGrants_registry_unsealed (registry : String) (kind : RegistryKind)
    (rbac : RbacSnapshot) (explicit : Option GrantMap) (namespaces : List NamespaceSpec)
    (writeMode : WriteMode) (registryShadow : Option DryRun) (g : RegistryGrants)
    (h : buildGrants registry kind rbac explicit namespaces writeMode registryShadow = .ok g) :
    g.registry.isSealed = false := by
  unfold buildGrants at h
  cases hmap : translateRbac rbac writeMode with
  | error e => simp [hmap] at h
  | ok map =>
    have hopen := translateRbac_unsealed rbac writeMode map hmap
    simp only [hmap, Except.ok.injEq] at h
    subst h
    simp only [Node.isSealed, Node.new, Node.shadowed, Option.any_some]
    apply isSealed_grantExplicit
    unfold exploreSubjects
    simp only [List.foldl_cons, List.foldl_nil]
    split <;> split <;> split <;> simp [hopen]

end BatleHub.Translation
