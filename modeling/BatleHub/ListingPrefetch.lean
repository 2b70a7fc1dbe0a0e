import BatleHub.VersionRows

/-!
Prefetched rows against queried ones. Rows fetched for the whole registry give what
the queries give; a failed fetch, handed down as no rows at all, filters nothing.
-/
namespace BatleHub.ListingPrefetch

open Grants Resolution GrantTable GrantChain ReadableScopes LocalPackages VersionListings
open VersionRows Translation Lib.AssocMap Lib.Texts

/-- The table behind a connection whose two registry-wide reads may fail. -/
def flaky (t : InMemoryGrantRepository) (packageFails versionFails : Option CoreError) :
    GrantRepository :=
  { t.repository with
    packageGrantsInRegistry := fun registry =>
      match packageFails with
      | some e => .error e
      | none => t.repository.packageGrantsInRegistry registry
    versionGrantsInRegistry := fun registry =>
      match versionFails with
      | some e => .error e
      | none => t.repository.versionGrantsInRegistry registry }

/-- The version rows the table holds under a package name. -/
def tableVersionRows (t : InMemoryGrantRepository) (registry name : String) : List StoredGrant :=
  t.rows.filter fun g => decide (g.registry = registry) && decide (g.nodeKind = .version) &&
    startsWith g.nodeKey (name ++ "@")

def tablePackageRows (t : InMemoryGrantRepository) (registry name : String) : List StoredGrant :=
  t.rows.filter fun g => decide (g.registry = registry) && decide (g.nodeKind = .package) &&
    decide (g.nodeKey = name)

/-- A fetch that succeeds has the table's rows of every package. -/
theorem fetchRows_mem (t : InMemoryGrantRepository) (packageFails versionFails : Option CoreError)
    (registry : String) (rows : RegistryGrantRows)
    (h : fetchRows (flaky t packageFails versionFails) registry = .ok rows) (name : String)
    (g : StoredGrant) :
    (g ∈ rows.versionsOf name ↔ g ∈ tableVersionRows t registry name) ∧
      (g ∈ rows.packageRows name ↔ g ∈ tablePackageRows t registry name) := by
  unfold fetchRows flaky at h
  cases packageFails with
  | some e => simp at h
  | none =>
    cases versionFails with
    | some e => simp [InMemoryGrantRepository.repository] at h
    | none =>
      simp only [InMemoryGrantRepository.repository, Except.ok.injEq] at h
      subst h
      constructor
      · simp [RegistryGrantRows.versionsOf, tableVersionRows,
          InMemoryGrantRepository.versionGrantsInRegistry, and_comm, and_left_comm, and_assoc]
      · simp [RegistryGrantRows.packageRows, tablePackageRows,
          InMemoryGrantRepository.packageGrantsInRegistry, and_assoc]

/-- The version would be listed by the rows the table holds. -/
def Shown (svc : LocalRegistryService) (t : InMemoryGrantRepository) (registry name : String)
    (identity : Identity) (p : PublishedPackage) : Prop :=
  svc.hot.grantRepo = none ∨ svc.hot.grants registry = none ∨
    (∃ grants, svc.hot.grants registry = some grants ∧
      (resolve (resolutionPath svc.hot grants name) (.identity identity)).holds .releasesRead
        = true) ∨
    RowsShow (tableVersionRows t registry name) (tablePackageRows t registry name) name
      (.identity identity) p.version

/-- Rows a caller of the listing passes down, and whether they were fetched. -/
inductive Passed (svc : LocalRegistryService) (registry : String) (identity : Identity) :
    RegistryGrantRows → Bool → Prop where
  | searched : Passed svc registry identity (searchRows svc registry identity)
      (readablePackages svc registry identity).isOk
  | document (rows : RegistryGrantRows) (h : documentRows svc registry identity = .ok rows) :
      Passed svc registry identity rows true

/-- Prefetching never widens the listing, and changes nothing when it succeeded. -/
def PrefetchSound (svc : LocalRegistryService) (registry name : String) (identity : Identity)
    (rows : RegistryGrantRows) (succeeded : Bool) : Prop :=
  (∀ vs, loadVisibleVersionsIn svc registry name identity (some rows) = .ok vs →
    ∃ ws, loadVisibleVersionsIn svc registry name identity none = .ok ws ∧ ∀ p ∈ vs, p ∈ ws) ∧
  (succeeded = true →
    loadVisibleVersionsIn svc registry name identity (some rows) =
      loadVisibleVersionsIn svc registry name identity none)

theorem loadVisibleVersionsIn_eq (svc : LocalRegistryService) (registry name : String)
    (identity : Identity) (rows : Option RegistryGrantRows) :
    loadVisibleVersionsIn svc registry name identity rows =
      match visibleBeforeGrants svc registry name identity with
      | .error e => .error e
      | .ok before => filterByGrants svc registry name before identity rows := by
  unfold loadVisibleVersionsIn loadVisibleVersionsReportingIn
  cases visibleBeforeGrants svc registry name identity with
  | error e => rfl
  | ok before =>
    dsimp only
    cases filterByGrants svc registry name before identity rows <;> rfl

/-- The two listings side by side, when storage and a hierarchy are there. -/
theorem filters_eq (svc : LocalRegistryService) (t : InMemoryGrantRepository)
    (packageFails versionFails : Option CoreError) (registry name : String) (identity : Identity)
    (grants : RegistryGrants)
    (hrepo : svc.hot.grantRepo = some (flaky t packageFails versionFails))
    (hgrants : svc.hot.grants registry = some grants) (before : List PublishedPackage)
    (rows : RegistryGrantRows) :
    (filterByGrants svc registry name before identity (some rows) =
      .ok (before.filter fun p =>
        (resolve (resolutionPath svc.hot grants name) (.identity identity)).holds .releasesRead ||
          decide (RowsShow (rows.versionsOf name) (rows.packageRows name) name
            (.identity identity) p.version))) ∧
    (filterByGrants svc registry name before identity none =
      .ok (before.filter fun p =>
        (resolve (resolutionPath svc.hot grants name) (.identity identity)).holds .releasesRead ||
          decide (RowsShow (if name = "" then [] else tableVersionRows t registry name)
            (tablePackageRows t registry name) name (.identity identity) p.version))) := by
  constructor
  · exact filterByGrants_eq svc registry name before identity (some rows) _ grants _ _ hrepo
      hgrants rfl rfl
  · rw [filterByGrants_eq svc registry name before identity none _ grants _ _ hrepo hgrants rfl
      rfl]
    congr 1
    apply List.filter_congr
    intro p _
    congr 1
    rw [decide_eq_decide]
    apply rowsShow_congr
    · intro g
      simp only [InMemoryGrantRepository.versionGrantsForPackage, tableVersionRows]
    · intro g
      simp [InMemoryGrantRepository.grantsOnNode, tablePackageRows]

/-- The read set either fails, or comes with the fetched rows, or needs none
because the configuration grants the read everywhere. -/
theorem readablePackages_cases (svc : LocalRegistryService) (repo : GrantRepository)
    (registry : String) (identity : Identity) (grants : RegistryGrants)
    (hrepo : svc.hot.grantRepo = some repo) (hgrants : svc.hot.grants registry = some grants)
    (hopen : grants.registry.isSealed = false) :
    (∃ e, readablePackages svc registry identity = .error e) ∨
      ∃ answer, readablePackages svc registry identity = .ok answer ∧
        (fetchRows repo registry = .ok answer.2 ∨
          ∀ name, (resolve (resolutionPath svc.hot grants name)
            (.identity identity)).holds .releasesRead = true) := by
  unfold readablePackages
  simp only [hgrants, hrepo]
  cases hread : Readable.fromRegistry svc.hot.instanceNode grants .releasesRead
      (.identity identity) with
  | everything =>
    refine Or.inr ⟨_, rfl, Or.inr ?_⟩
    exact holds_of_everything svc.hot.instanceNode grants hopen .releasesRead _ hread
  | scopedTo scope =>
    simp only [Readable.needsPackageGrants]
    cases fetchRows repo registry with
    | error e => exact Or.inl ⟨e, rfl⟩
    | ok fetched => exact Or.inr ⟨_, rfl, Or.inl rfl⟩

/-- What the rows passed down can be: fetched from the table, not needed since
the configuration grants the read, or the default after a failure. -/
theorem passed_cases (svc : LocalRegistryService) (repo : GrantRepository) (registry : String)
    (identity : Identity) (grants : RegistryGrants) (hrepo : svc.hot.grantRepo = some repo)
    (hgrants : svc.hot.grants registry = some grants)
    (hopen : grants.registry.isSealed = false) (rows : RegistryGrantRows) (succeeded : Bool)
    (h : Passed svc registry identity rows succeeded) :
    (succeeded = true ∧ fetchRows repo registry = .ok rows) ∨
      (succeeded = true ∧ ∀ name, (resolve (resolutionPath svc.hot grants name)
        (.identity identity)).holds .releasesRead = true) ∨
      (succeeded = false ∧ rows = .default) := by
  have hreadable := readablePackages_cases svc repo registry identity grants hrepo hgrants hopen
  cases h with
  | searched =>
    unfold searchRows
    rcases hreadable with ⟨e, he⟩ | ⟨answer, hanswer, hcases⟩
    · exact Or.inr (Or.inr ⟨by simp [he, Except.isOk, Except.toBool], by simp [he]⟩)
    · simp only [hanswer]
      rcases hcases with hfetch | hconfig
      · exact Or.inl ⟨rfl, hfetch⟩
      · exact Or.inr (Or.inl ⟨rfl, hconfig⟩)
  | document rows hdocument =>
    unfold documentRows at hdocument
    simp only [hgrants, hrepo] at hdocument
    split at hdocument
    · exact Or.inl ⟨rfl, hdocument⟩
    · rcases hreadable with ⟨e, he⟩ | ⟨answer, hanswer, hcases⟩
      · simp [he] at hdocument
      · simp only [hanswer, Except.ok.injEq] at hdocument
        subst hdocument
        rcases hcases with hfetch | hconfig
        · exact Or.inl ⟨rfl, hfetch⟩
        · exact Or.inr (Or.inl ⟨rfl, hconfig⟩)

/-- Soundness of two filters of one list is a statement about each version. -/
theorem prefetchSound_iff_of_filters (svc : LocalRegistryService) (registry name : String)
    (identity : Identity) (rows : RegistryGrantRows) (succeeded : Bool)
    (before : List PublishedPackage) (keep₁ keep₂ : PublishedPackage → Bool)
    (hbefore : visibleBeforeGrants svc registry name identity = .ok before)
    (h₁ : filterByGrants svc registry name before identity (some rows) =
      .ok (before.filter keep₁))
    (h₂ : filterByGrants svc registry name before identity none = .ok (before.filter keep₂)) :
    PrefetchSound svc registry name identity rows succeeded ↔
      (∀ p ∈ before, keep₁ p = true → keep₂ p = true) ∧
        (succeeded = true → ∀ p ∈ before, keep₁ p = keep₂ p) := by
  simp only [PrefetchSound, loadVisibleVersionsIn_eq, hbefore, h₁, h₂, Except.ok.injEq,
    forall_eq', exists_eq_left']
  refine and_congr ?_ (imp_congr_right fun _ => ?_)
  · constructor
    · intro hsub p hp hkeep
      exact (List.mem_filter.mp (hsub p (List.mem_filter.mpr ⟨hp, hkeep⟩))).2
    · intro himp p hp
      obtain ⟨hmem, hkeep⟩ := List.mem_filter.mp hp
      exact List.mem_filter.mpr ⟨hmem, himp p hmem hkeep⟩
  · constructor
    · intro heq p hp
      have hmem : p ∈ before.filter keep₁ ↔ p ∈ before.filter keep₂ := by rw [heq]
      simp only [List.mem_filter, hp, true_and] at hmem
      exact Bool.eq_iff_iff.mpr hmem
    · intro hsame
      exact List.filter_congr hsame

/-- Exactly when prefetching keeps the listing: after a failed fetch (of a named
package), and for the empty name after a successful one, only when the table's
own rows would withhold nothing. -/
theorem prefetchSound_iff (svc : LocalRegistryService) (t : InMemoryGrantRepository)
    (packageFails versionFails : Option CoreError) (registry name : String) (identity : Identity)
    (hrepo : ∀ repo, svc.hot.grantRepo = some repo → repo = flaky t packageFails versionFails)
    (hbuilt : ∀ grants, svc.hot.grants registry = some grants →
      ∃ label kind rbac explicit namespaces writeMode shadow,
        buildGrants label kind rbac explicit namespaces writeMode shadow = .ok grants)
    (rows : RegistryGrantRows) (succeeded : Bool)
    (hpassed : Passed svc registry identity rows succeeded) :
    PrefetchSound svc registry name identity rows succeeded ↔
      ((succeeded = false ∧ name ≠ "" ∨ succeeded = true ∧ name = "") →
        ∀ before, visibleBeforeGrants svc registry name identity = .ok before →
          ∀ p ∈ before, Shown svc t registry name identity p) := by
  cases hbefore : visibleBeforeGrants svc registry name identity with
  | error e => simp [PrefetchSound, loadVisibleVersionsIn_eq, hbefore]
  | ok before =>
    simp only [Except.ok.injEq, forall_eq']
    cases hgrantRepo : svc.hot.grantRepo with
    | none =>
      have hsame : ∀ rows, filterByGrants svc registry name before identity rows = .ok before := by
        intro rows
        simp [filterByGrants, hgrantRepo]
      simp [PrefetchSound, loadVisibleVersionsIn_eq, hbefore, hsame, Shown, hgrantRepo]
    | some repo =>
      obtain rfl := hrepo repo hgrantRepo
      cases hgrants : svc.hot.grants registry with
      | none =>
        have hsame : ∀ rows, filterByGrants svc registry name before identity rows =
            .ok before := by
          intro rows
          simp [filterByGrants, hgrantRepo, hgrants]
        simp [PrefetchSound, loadVisibleVersionsIn_eq, hbefore, hsame, Shown, hgrants]
      | some grants =>
        obtain ⟨label, kind, rbac, explicit, namespaces, writeMode, shadow, hbuild⟩ :=
          hbuilt grants hgrants
        have hopen := buildGrants_registry_unsealed label kind rbac explicit namespaces writeMode
          shadow grants hbuild
        obtain ⟨h₁, h₂⟩ := filters_eq svc t packageFails versionFails registry name identity
          grants hgrantRepo hgrants before rows
        rw [prefetchSound_iff_of_filters svc registry name identity rows succeeded before _ _
          hbefore h₁ h₂]
        have hshown : ∀ p, Shown svc t registry name identity p ↔
            ((resolve (resolutionPath svc.hot grants name) (.identity identity)).holds
              .releasesRead || decide (RowsShow (tableVersionRows t registry name)
                (tablePackageRows t registry name) name (.identity identity) p.version)) = true := by
          intro p
          simp [Shown, hgrantRepo, hgrants]
        simp only [hshown]
        rcases passed_cases svc _ registry identity grants hgrantRepo hgrants hopen rows
          succeeded hpassed with ⟨rfl, hfetch⟩ | ⟨rfl, hconfig⟩ | ⟨rfl, rfl⟩
        · -- the rows are the table's, so only the empty name is read differently
          have hmem := fetchRows_mem t packageFails versionFails registry rows hfetch name
          have hrows := fun version => rowsShow_congr (fun g => (hmem g).1) (fun g => (hmem g).2)
            name (.identity identity) version
          by_cases hname : name = ""
          · subst hname
            simp [hrows]
          · simp [hname, hrows]
        · simp [hconfig name]
        · by_cases hname : name = ""
          · simp [hname, RegistryGrantRows.versionsOf, RegistryGrantRows.default]
          · simp [hname, RegistryGrantRows.versionsOf, RegistryGrantRows.default]

/-- One version row, for bob. -/
def bobRows : InMemoryGrantRepository where
  rows := [⟨"npm", .version, "left-pad@1.0.0", .user "bob", [.releasesRead], none⟩]
  keys_nodup := by simp
  actions_ne_nil := by simp

def leftPadVersion : PublishedPackage :=
  ⟨"npm", "left-pad", "1.0.0", "abc", false, false, none, false, Json.emptyObject, 0, none, none,
    none, .isPublic, false⟩

/-- Alice may list the registry and read nothing in it. -/
def listOnlyService (packageFails : Option CoreError) : LocalRegistryService where
  hot := {
    grants := fun registry => if registry = "npm" then
        (buildGrants "npm" .npm plainSnapshot
          (some (GrantMap.new.grant (.user "alice") [.releasesList])) [] .accepts none).toOption
      else none
    instanceNode := none
    grantRepo := some (flaky bobRows packageFails none) }
  today := 0
  hasDocumentCache := false
  getVersions _ _ := .ok [leftPadVersion]
  listPackageNames _ := .ok ["left-pad"]
  checkVisibility _ _ _ := .ok ()
  blockedVersions := none
  betaChannel _ := none
  isPrerelease _ := false
  toLowercase s := s

def aliceIdentity : Identity := ⟨some "alice", .user, none, []⟩

theorem prefetchSound_after_fetch :
    (readablePackages (listOnlyService none) "npm" aliceIdentity).isOk = true ∧
      PrefetchSound (listOnlyService none) "npm" "left-pad" aliceIdentity
        (searchRows (listOnlyService none) "npm" aliceIdentity) true := by
  refine ⟨by decide, ?_⟩
  refine (prefetchSound_iff (listOnlyService none) bobRows none none "npm" "left-pad"
    aliceIdentity ?_ ?_ _ true .searched).mpr ?_
  · intro repo hrepo
    exact (Option.some.inj hrepo).symm
  · intro grants hgrants
    refine ⟨"npm", .npm, plainSnapshot, some (GrantMap.new.grant (.user "alice") [.releasesList]),
      [], .accepts, none, ?_⟩
    obtain rfl := Option.some.inj (show some _ = some grants from hgrants)
    rfl
  · intro hcase
    rcases hcase with ⟨hfalse, -⟩ | ⟨-, hname⟩
    · exact absurd hfalse (by decide)
    · exact absurd hname (by decide)

/-- The fetch fails, the search hands down no rows, and alice is shown the
version that bob's row withholds from her. -/
theorem failed_prefetch_widens :
    (readablePackages (listOnlyService (some (.database "timeout"))) "npm" aliceIdentity).isOk
        = false ∧
      searchLocal (listOnlyService (some (.database "timeout"))) "npm" "" 10 aliceIdentity =
        [⟨"left-pad", "1.0.0"⟩] ∧
      ¬ PrefetchSound (listOnlyService (some (.database "timeout"))) "npm" "left-pad" aliceIdentity
        (searchRows (listOnlyService (some (.database "timeout"))) "npm" aliceIdentity) false := by
  refine ⟨by decide, by decide, ?_⟩
  intro hex
  obtain ⟨hsubset, -⟩ := hex
  obtain ⟨ws, hws, hmem⟩ := hsubset [leftPadVersion] rfl
  obtain rfl := Except.ok.inj (show Except.ok [] = Except.ok ws from hws)
  exact absurd (hmem leftPadVersion (by simp)) (by simp)

end BatleHub.ListingPrefetch
