import BatleHub.GrantTable
import BatleHub.NamespaceSeals
import BatleHub.Translation

/-!
The funnel every read goes through (`services/authz/chain.rs`): the path of a
coordinate is the instance node if there is one, the configured nodes, and one
node for each stored tier that has rows. Enforcement stops before storage when
the configured half already holds the verb. Stored nodes are never seals, so
appending them only adds and stopping early loses nothing.
-/
namespace BatleHub.GrantChain

open Grants Resolution NamespaceSeals GrantTable

/-- The part of the reloadable configuration that authorization reads. -/
structure HotConfig where
  grants : String → Option RegistryGrants
  instanceNode : Option Node
  grantRepo : Option GrantRepository

/-- The two maps the rows of a coordinate are folded into, and whether each tier
had a row at all. -/
structure StoredTiers where
  package : GrantMap
  versionMap : GrantMap
  hasPackage : Bool
  hasVersion : Bool
  deriving Repr

namespace StoredTiers

def new : StoredTiers := ⟨GrantMap.new, GrantMap.new, false, false⟩

def push (tiers : StoredTiers) (g : StoredGrant) : StoredTiers :=
  match g.nodeKind with
  | .package =>
    { tiers with hasPackage := true, package := tiers.package.grant g.subject g.actions }
  | .version =>
    { tiers with hasVersion := true, versionMap := tiers.versionMap.grant g.subject g.actions }

/-- A tier with no rows contributes no node: an empty map would be a seal. -/
def nodes (tiers : StoredTiers) (packageId : PackageId) : List Node :=
  (if tiers.hasPackage then
    [Node.new .packageTier ("package:" ++ packageId.name) (some tiers.package)] else []) ++
  (if tiers.hasVersion then
    [Node.new .versionTier ("version:" ++ packageId.version) (some tiers.versionMap)] else [])

end StoredTiers

/-- A listing names no version. -/
def coordinateVersion (packageId : PackageId) : Option String :=
  if packageId.version = "" then none else some packageId.version

/-- The package and version nodes of a coordinate, from storage. -/
def storedNodes (hot : HotConfig) (packageId : PackageId) : Except CoreError (List Node) :=
  match hot.grantRepo with
  | none => .ok []
  | some repo =>
    if packageId.name = "" then .ok []
    else
      match repo.grantsFor packageId.registry packageId.name (coordinateVersion packageId) with
      | .error e => .error e
      | .ok stored => .ok ((stored.foldl StoredTiers.push StoredTiers.new).nodes packageId)

def instancePrefix (hot : HotConfig) : List Node := hot.instanceNode.toList

/-- The configured path of a coordinate: instance, registry, matching namespaces. -/
def resolutionPath (hot : HotConfig) (grants : RegistryGrants) (package : String) : List Node :=
  instancePrefix hot ++ grants.pathFor package

/-- The whole path: the configured nodes, then the stored ones. -/
def resolutionPathForCoordinate (hot : HotConfig) (grants : RegistryGrants)
    (packageId : PackageId) : Except CoreError (List Node) :=
  match storedNodes hot packageId with
  | .error e => .error e
  | .ok nodes => .ok (resolutionPath hot grants packageId.name ++ nodes)

/-- The first node on the path whose shadow is still in force. -/
def activeShadow (today : NaiveDate) (path : List Node) : Option Node :=
  path.find? fun n => n.dryRun.any fun d => d.isActive today

/-- The denial is answered only after storage was asked and no shadow is active. -/
def authorizeGrants (hot : HotConfig) (today : NaiveDate) (packageId : PackageId)
    (subject : Identity) (action : Action) : Except CoreError Unit :=
  match hot.grants packageId.registry with
  | none => .ok ()
  | some grants =>
    let path := resolutionPath hot grants packageId.name
    if (resolve path (.identity subject)).holds action then .ok ()
    else
      match storedNodes hot packageId with
      | .error e => .error e
      | .ok nodes =>
        let path := path ++ nodes
        if (resolve path (.identity subject)).holds action then .ok ()
        else if (activeShadow today path).isSome then .ok ()
        else
          .error (.accessDenied ("no grant for '" ++ action.asStr ++ "' on registry '" ++
            packageId.registry ++ "'"))

/-- A listing is gated by its grants alone; the rule chain is deferred to the
download. -/
def authorizeListing (hot : HotConfig) (today : NaiveDate) (packageId : PackageId)
    (identity : Identity) (action : Action) : Except CoreError Unit :=
  authorizeGrants hot today packageId identity action

/-- The rows of one stored tier. -/
def tierRows (kind : NodeKind) (rows : List StoredGrant) : List (SubjectMatcher × List Action) :=
  (rows.filter fun g => decide (g.nodeKind = kind)).map fun g => (g.subject, g.actions)

/-- The loop over the rows, tier by tier. -/
theorem foldl_push (rows : List StoredGrant) (tiers : StoredTiers) :
    rows.foldl StoredTiers.push tiers =
      { package := tiers.package.grantAll (tierRows .package rows)
        versionMap := tiers.versionMap.grantAll (tierRows .version rows)
        hasPackage := tiers.hasPackage || !(tierRows .package rows).isEmpty
        hasVersion := tiers.hasVersion || !(tierRows .version rows).isEmpty } := by
  induction rows generalizing tiers with
  | nil => simp [tierRows, GrantMap.grantAll]
  | cons g rest ih =>
    rw [List.foldl_cons, ih]
    cases hkind : g.nodeKind with
    | package => simp [StoredTiers.push, hkind, tierRows, GrantMap.grantAll]
    | version => simp [StoredTiers.push, hkind, tierRows, GrantMap.grantAll]

theorem nodes_foldl_push (rows : List StoredGrant) (packageId : PackageId) :
    (rows.foldl StoredTiers.push StoredTiers.new).nodes packageId =
      (Node.ofRows .packageTier ("package:" ++ packageId.name) (tierRows .package rows)).toList ++
        (Node.ofRows .versionTier ("version:" ++ packageId.version)
          (tierRows .version rows)).toList := by
  rw [foldl_push]
  simp only [StoredTiers.nodes, StoredTiers.new, Node.ofRows, Bool.false_or]
  cases (tierRows .package rows).isEmpty <;> cases (tierRows .version rows).isEmpty <;> simp

/-- The rows storage answers for a coordinate, none when it is not asked. -/
def storedRows (hot : HotConfig) (packageId : PackageId) : Except CoreError (List StoredGrant) :=
  match hot.grantRepo with
  | none => .ok []
  | some repo =>
    if packageId.name = "" then .ok []
    else repo.grantsFor packageId.registry packageId.name (coordinateVersion packageId)

/-- A row names the subject and carries the verb. -/
def RowGives (subject : Subject) (a : Action) (row : StoredGrant) : Prop :=
  row.subject.matchesSubject subject = true ∧ a ∈ row.actions

theorem exists_tierRows_iff (rows : List StoredGrant) (subject : Subject) (a : Action) :
    ((∃ row ∈ tierRows .package rows, row.1.matchesSubject subject = true ∧ a ∈ row.2) ∨
      ∃ row ∈ tierRows .version rows, row.1.matchesSubject subject = true ∧ a ∈ row.2) ↔
      ∃ row ∈ rows, RowGives subject a row := by
  constructor
  · intro hcase
    rcases hcase with ⟨row, hrow, hgives⟩ | ⟨row, hrow, hgives⟩
    all_goals
      obtain ⟨g, hg, rfl⟩ := List.mem_map.mp hrow
      exact ⟨g, (List.mem_filter.mp hg).1, hgives⟩
  · intro hex
    obtain ⟨g, hg, hgives⟩ := hex
    cases hkind : g.nodeKind with
    | package =>
      exact Or.inl ⟨_, List.mem_map.mpr ⟨g, List.mem_filter.mpr ⟨hg, by simp [hkind]⟩, rfl⟩, hgives⟩
    | version =>
      exact Or.inr ⟨_, List.mem_map.mpr ⟨g, List.mem_filter.mpr ⟨hg, by simp [hkind]⟩, rfl⟩, hgives⟩

/-- What storage contributes to a path: no seal, and the verbs of the rows. -/
theorem storedNodes_spec (hot : HotConfig) (packageId : PackageId) (rows : List StoredGrant)
    (h : storedRows hot packageId = .ok rows) :
    ∃ nodes, storedNodes hot packageId = .ok nodes ∧ (∀ n ∈ nodes, n.isSealed = false) ∧
      ∀ subject a, (∃ n ∈ nodes, n.Gives subject a) ↔ ∃ row ∈ rows, RowGives subject a row := by
  refine ⟨(rows.foldl StoredTiers.push StoredTiers.new).nodes packageId, ?_, ?_, ?_⟩
  · unfold storedRows at h
    unfold storedNodes
    cases hrepo : hot.grantRepo with
    | none =>
      simp only [hrepo, Except.ok.injEq] at h
      simp [← h, StoredTiers.nodes, StoredTiers.new]
    | some repo =>
      simp only [hrepo] at h ⊢
      split at h
      · rename_i hname
        obtain rfl := Except.ok.inj h
        simp [hname, StoredTiers.nodes, StoredTiers.new]
      · rename_i hname
        simp [hname, h]
  · rw [nodes_foldl_push]
    intro n hn
    rcases List.mem_append.mp hn with hn | hn
    · exact Node.isSealed_ofRows _ _ _ n (Option.mem_toList.mp hn)
    · exact Node.isSealed_ofRows _ _ _ n (Option.mem_toList.mp hn)
  · intro subject a
    rw [nodes_foldl_push, ← exists_tierRows_iff, ← Node.ofRows_gives .packageTier,
      ← Node.ofRows_gives .versionTier]
    simp only [List.mem_append, Option.mem_toList, or_and_right, exists_or]
    rfl

/-- The configured nodes alone already decide, whatever storage would add. -/
theorem holds_coordinate_iff (hot : HotConfig) (grants : RegistryGrants) (packageId : PackageId)
    (rows : List StoredGrant) (h : storedRows hot packageId = .ok rows) :
    ∃ path, resolutionPathForCoordinate hot grants packageId = .ok path ∧
      ∀ subject a, (resolve path subject).holds a = true ↔
        (resolve (resolutionPath hot grants packageId.name) subject).holds a = true ∨
          ∃ row ∈ rows, RowGives subject a row := by
  obtain ⟨nodes, hnodes, hopen, hgives⟩ := storedNodes_spec hot packageId rows h
  refine ⟨resolutionPath hot grants packageId.name ++ nodes, ?_, ?_⟩
  · simp [resolutionPathForCoordinate, hnodes]
  · intro subject a
    rw [holds_resolve_append _ _ hopen, hgives]

/-- The row stands on the coordinate's package node or on its version node. -/
def OnNodes (packageId : PackageId) (row : StoredGrant) : Prop :=
  packageId.name ≠ "" ∧ row.registry = packageId.registry ∧
    (row.nodeKind = .package ∧ row.nodeKey = packageId.name ∨
      row.nodeKind = .version ∧ packageId.version ≠ "" ∧
        row.nodeKey = versionNodeKey packageId.name packageId.version)

/-- Over the in-memory table a coordinate is folded from all the rows on its two nodes. -/
theorem mem_storedRows_iff (hot : HotConfig) (packageId : PackageId)
    (table : InMemoryGrantRepository) (hrepo : hot.grantRepo = some table.repository)
    (rows : List StoredGrant) (hrows : storedRows hot packageId = .ok rows) (row : StoredGrant) :
    row ∈ rows ↔ row ∈ table.rows ∧ OnNodes packageId row := by
  unfold storedRows at hrows
  simp only [hrepo, InMemoryGrantRepository.repository] at hrows
  unfold OnNodes
  by_cases hname : packageId.name = ""
  · rw [if_pos hname] at hrows
    obtain rfl := Except.ok.inj hrows
    simp [hname]
  · rw [if_neg hname] at hrows
    obtain rfl := Except.ok.inj hrows
    rw [InMemoryGrantRepository.mem_grantsFor]
    unfold coordinateVersion
    by_cases hversion : packageId.version = ""
    · simp [hname, hversion]
    · simp [hname, hversion, eq_comm]

/-- Enforcement and the whole path agree: the early stop is sound, storage never
takes back what the configuration granted, and without an active shadow a
request passes exactly when the registry has no hierarchy or the whole path
holds the verb. The whole path holds what its configured half holds and what
some row gives. -/
theorem authorizeGrants_ok_iff (hot : HotConfig) (today : NaiveDate) (packageId : PackageId)
    (identity : Identity) (action : Action) (rows : List StoredGrant)
    (hrows : storedRows hot packageId = .ok rows)
    (hshadow : ∀ grants path, hot.grants packageId.registry = some grants →
      resolutionPathForCoordinate hot grants packageId = .ok path →
      activeShadow today path = none) :
    (authorizeGrants hot today packageId identity action = .ok () ↔
      hot.grants packageId.registry = none ∨
        ∃ grants path, hot.grants packageId.registry = some grants ∧
          resolutionPathForCoordinate hot grants packageId = .ok path ∧
          (resolve path (.identity identity)).holds action = true) ∧
      (∀ grants nodes, storedNodes hot packageId = .ok nodes →
        (resolve (resolutionPath hot grants packageId.name) (.identity identity)).holds action
          = true →
        (resolve (resolutionPath hot grants packageId.name ++ nodes) (.identity identity)).holds
          action = true) ∧
      (∀ grants, ∃ path, resolutionPathForCoordinate hot grants packageId = .ok path ∧
        ∀ subject a, (resolve path subject).holds a = true ↔
          (resolve (resolutionPath hot grants packageId.name) subject).holds a = true ∨
            ∃ row ∈ rows, RowGives subject a row) ∧
      ∀ table : InMemoryGrantRepository, hot.grantRepo = some table.repository →
        ∀ row, row ∈ rows ↔ row ∈ table.rows ∧ OnNodes packageId row := by
  obtain ⟨nodes, hnodes, hopen, -⟩ := storedNodes_spec hot packageId rows hrows
  have hkeep := fun grants => (holds_resolve_append (resolutionPath hot grants packageId.name)
    nodes hopen (.identity identity) action).mpr
  refine ⟨?_, ?_, fun grants => holds_coordinate_iff hot grants packageId rows hrows,
    fun table hrepo => mem_storedRows_iff hot packageId table hrepo rows hrows⟩
  · cases hgrants : hot.grants packageId.registry with
    | none => simp [authorizeGrants, hgrants]
    | some grants =>
      have hpath : resolutionPathForCoordinate hot grants packageId =
          .ok (resolutionPath hot grants packageId.name ++ nodes) := by
        simp [resolutionPathForCoordinate, hnodes]
      have hquiet := hshadow grants _ hgrants hpath
      have hwhole : (∃ path, resolutionPathForCoordinate hot grants packageId = .ok path ∧
          (resolve path (.identity identity)).holds action = true) ↔
          (resolve (resolutionPath hot grants packageId.name ++ nodes)
            (.identity identity)).holds action = true := by
        simp [hpath]
      simp only [reduceCtorEq, Option.some.injEq, exists_and_left, exists_eq_left', false_or,
        hwhole, authorizeGrants, hgrants, hnodes, hquiet]
      by_cases hconfig : (resolve (resolutionPath hot grants packageId.name)
          (.identity identity)).holds action = true
      · simp [hconfig, hkeep grants (Or.inl hconfig)]
      · rw [if_neg hconfig]
        split <;> simp_all
  · intro grants nodes' hnodes' hconfig
    obtain rfl := Except.ok.inj (hnodes.symm.trans hnodes')
    exact hkeep grants (Or.inl hconfig)

/-- A row on `left-pad` for bob and one on its version 1.0.0 for carol, under a registry
that grants both nothing. -/
def sharedRows : InMemoryGrantRepository where
  rows := [⟨"npm", .package, "left-pad", .user "bob", [.releasesRead], none⟩,
    ⟨"npm", .version, "left-pad@1.0.0", .user "carol", [.releasesRead], none⟩]
  keys_nodup := by decide
  actions_ne_nil := by simp

def sharedHot : HotConfig where
  grants registry := if registry = "npm" then
      some ⟨.npm, Node.new .registryTier "registry:npm"
        (some (GrantMap.new.grant (.role .admin) [.ownersRead])), []⟩
    else none
  instanceNode := none
  grantRepo := some sharedRows.repository

theorem authorizeGrants_ok_by_stored_row :
    authorizeGrants sharedHot 0 (PackageId.new "npm" "left-pad" "1.0.0")
      ⟨some "carol", .user, none, []⟩ .releasesRead = .ok () := by
  obtain ⟨hok, -, hpath, hmem⟩ := authorizeGrants_ok_iff sharedHot 0
    (PackageId.new "npm" "left-pad" "1.0.0") ⟨some "carol", .user, none, []⟩ .releasesRead _ rfl
    (by
      intro grants path hgrants hpath
      obtain rfl := Option.some.inj (show some _ = some grants from hgrants)
      obtain rfl := Except.ok.inj (show Except.ok _ = Except.ok path from hpath)
      decide)
  obtain ⟨path, hwhole, hholds⟩ := hpath _
  refine hok.mpr (Or.inr ⟨_, path, rfl, hwhole, (hholds _ _).mpr (Or.inr ?_)⟩)
  -- the row that gives the verb is the one on the version node
  refine ⟨⟨"npm", .version, "left-pad@1.0.0", .user "carol", [.releasesRead], none⟩,
    (hmem sharedRows rfl _).mpr ⟨by decide, by decide, rfl, Or.inr ⟨rfl, by decide, rfl⟩⟩, ?_⟩
  exact ⟨by decide, by decide⟩

/-- Where the floor comes from: the node above the registry if there is one.
Otherwise nothing has to be restored, or an open block grants the verb anyway. -/
def FloorSurvives (hot : HotConfig) (grants : RegistryGrants) (package : String)
    (subject : Subject) (a : Action) : Prop :=
  (∀ top, hot.instanceNode = some top → top.Gives subject a) ∨
    (∀ block, Reaches grants block package → block.2.isSealed = false) ∨
    OpenBlockGives grants package subject a

theorem matching_unsealed_iff (grants : RegistryGrants) (package : String) :
    (∀ n ∈ grants.matching package, n.isSealed = false) ↔
      ∀ block, Reaches grants block package → block.2.isSealed = false := by
  simp only [RegistryGrants.matching, List.forall_mem_map, List.mem_filter, Reaches]

theorem holds_floor_configured_iff (hot : HotConfig) (grants : RegistryGrants)
    (package : String) (subject : Subject) (a : Action) (ha : a ∈ administrativeFloor)
    (hregistry : grants.registry.Gives subject a) :
    (resolve (resolutionPath hot grants package) subject).holds a = true ↔
      FloorSurvives hot grants package subject a := by
  unfold FloorSurvives resolutionPath instancePrefix
  rw [holds_configured_iff, ← openBlockGives_iff, ← matching_unsealed_iff]
  have htop : (hot.instanceNode.getD grants.registry).Gives subject a ↔
      ∀ top, hot.instanceNode = some top → top.Gives subject a := by
    cases hot.instanceNode with
    | none => simp [hregistry]
    | some top => simp
  rw [htop]
  constructor
  · intro hcase
    rcases hcase with hopen | ⟨hclear, -⟩ | ⟨-, -, hfirst⟩
    · exact Or.inr (Or.inr hopen)
    · exact Or.inr (Or.inl hclear)
    · exact Or.inl hfirst
  · intro hcase
    rcases hcase with hfirst | hclear | hopen
    · by_cases hclear : ∀ n ∈ grants.matching package, n.isSealed = false
      · exact Or.inr (Or.inl ⟨hclear, Or.inl hregistry⟩)
      · obtain ⟨n, hn, hsealed⟩ : ∃ n ∈ grants.matching package, n.isSealed = true := by
          simpa using hclear
        refine Or.inr (Or.inr ⟨⟨n, ?_, hsealed⟩, ha, hfirst⟩)
        rw [grants.pathFor_eq]
        exact List.mem_append_right _ (List.mem_cons_of_mem _ hn)
    · exact Or.inr (Or.inl ⟨hclear, Or.inl hregistry⟩)
    · exact Or.inl hopen

/-- Exactly when a floor verb the registry grants is held, on both paths. -/
theorem floor_restored_iff (hot : HotConfig) (grants : RegistryGrants) (packageId : PackageId)
    (subject : Subject) (a : Action) (rows : List StoredGrant)
    (ha : a ∈ administrativeFloor) (hregistry : grants.registry.Gives subject a)
    (hrows : storedRows hot packageId = .ok rows) :
    ((resolve (resolutionPath hot grants packageId.name) subject).holds a = true ↔
      FloorSurvives hot grants packageId.name subject a) ∧
    ∃ path, resolutionPathForCoordinate hot grants packageId = .ok path ∧
      ((resolve path subject).holds a = true ↔
        FloorSurvives hot grants packageId.name subject a ∨
          ∃ row ∈ rows, RowGives subject a row) := by
  have hconfig := holds_floor_configured_iff hot grants packageId.name subject a ha hregistry
  obtain ⟨path, hpath, hholds⟩ := holds_coordinate_iff hot grants packageId rows hrows
  exact ⟨hconfig, path, hpath, by rw [hholds, hconfig]⟩

/-- A registry that grants alice the owners, over a sealed `@acme`. -/
def ownedGrants : RegistryGrants where
  kind := .npm
  registry := Node.new .registryTier "registry:npm"
    (some (GrantMap.new.grant (.user "alice") [.ownersRead]))
  namespaces := [acmeBlock]

def ownedHot (instanceNode : Option Node) : HotConfig where
  grants registry := if registry = "npm" then some ownedGrants else none
  instanceNode := instanceNode
  grantRepo := none

theorem floor_restored_without_instance :
    alice.caller.userId = some "alice" ∧ ownedGrants.registry.Gives alice .ownersRead ∧
      acmeBlock.2.isSealed = true ∧
      (resolve (resolutionPath (ownedHot none) ownedGrants "@acme/app") alice).holds
        .ownersRead = true := by
  refine ⟨rfl, by decide, by decide, ?_⟩
  exact (floor_restored_iff (ownedHot none) ownedGrants (PackageId.new "npm" "@acme/app" "1.0.0")
    alice .ownersRead [] (by decide) (by decide) rfl).1.mpr (Or.inl (by simp [ownedHot]))

/-- Under the instance node every server has, the floor is read from it and the
registry's own grant is not restored. -/
theorem floor_lost_under_instance :
    Action.ownersRead ∈ administrativeFloor ∧ ownedGrants.registry.Gives alice .ownersRead ∧
      (resolve (resolutionPath (ownedHot (some (Translation.instanceNode none))) ownedGrants
        "@acme/app") alice).holds .ownersRead = false := by
  decide

end BatleHub.GrantChain
