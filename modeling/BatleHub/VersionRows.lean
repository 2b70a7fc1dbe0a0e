import BatleHub.VersionListings

/-!
The version tier of the listing filter. The loop over the rows and the nodes it
builds come down to one predicate on a version (`filterByGrants_eq`), which reads
the rows only through membership.
-/
namespace BatleHub.VersionRows

open Grants Resolution GrantTable GrantChain LocalPackages VersionListings
open Lib.AssocMap Lib.Texts

/-- The rows written on one version of the package. -/
def rowsOfVersion (name version : String) (rows : List StoredGrant) : List StoredGrant :=
  rows.filter fun g => decide (g.nodeKey = versionNodeKey name version)

instance (subject : Subject) (a : Action) (row : StoredGrant) :
    Decidable (RowGives subject a row) :=
  inferInstanceAs (Decidable (_ ∧ _))

/-- The loop over the rows, read at one version. -/
theorem lookup_foldl_pushVersionRow (name version : String) (rows : List StoredGrant)
    (maps : Assoc String GrantMap) :
    (rows.foldl (pushVersionRow name) maps).lookup version =
      if (rowsOfVersion name version rows).isEmpty then maps.lookup version
      else some (((maps.lookup version).getD GrantMap.new).grantAll
        (subjectRows (rowsOfVersion name version rows))) := by
  induction rows generalizing maps with
  | nil => simp [rowsOfVersion]
  | cons g rest ih =>
    rw [List.foldl_cons, ih]
    by_cases hkey : g.nodeKey = versionNodeKey name version
    · have hstrip : stripPrefix g.nodeKey (name ++ "@") = some version :=
        (stripPrefix_eq_some_iff _ _ _).mpr hkey
      have hrows : rowsOfVersion name version (g :: rest) =
          g :: rowsOfVersion name version rest := by
        simp [rowsOfVersion, hkey]
      rw [hrows]
      simp only [pushVersionRow, hstrip, lookup_insert_eq, if_true, Option.getD_some,
        List.isEmpty_cons]
      cases hrest : rowsOfVersion name version rest with
      | nil => simp [subjectRows, GrantMap.grantAll]
      | cons h tail => simp [subjectRows, GrantMap.grantAll]
    · have hrows : rowsOfVersion name version (g :: rest) =
          rowsOfVersion name version rest := by
        simp [rowsOfVersion, hkey]
      rw [hrows]
      cases hstrip : stripPrefix g.nodeKey (name ++ "@") with
      | none => simp [pushVersionRow, hstrip]
      | some v =>
        have hne : version ≠ v := by
          intro heq
          subst heq
          exact hkey ((stripPrefix_eq_some_iff _ _ _).mp hstrip)
        simp [pushVersionRow, hstrip, hne]

/-- The version node of the path, as one node folded from its rows. -/
theorem versionNode_eq (name version : String) (rows : List StoredGrant) :
    (((byVersion name rows).lookup version).map fun map =>
      Node.new .versionTier ("version:" ++ version) (some map)) =
    Node.ofRows .versionTier ("version:" ++ version)
      (subjectRows (rowsOfVersion name version rows)) := by
  rw [byVersion, lookup_foldl_pushVersionRow, Node.ofRows]
  cases rowsOfVersion name version rows <;> simp [subjectRows]

/-- The rows leave a version in the listing: there is no version row at all, or a
row on the package or on the version gives the read. -/
def RowsShow (versionRows packageRows : List StoredGrant) (name : String) (subject : Subject)
    (version : String) : Prop :=
  versionRows = [] ∨ (∃ g ∈ packageRows, RowGives subject .releasesRead g) ∨
    ∃ g ∈ versionRows, g.nodeKey = versionNodeKey name version ∧
      RowGives subject .releasesRead g

instance (versionRows packageRows : List StoredGrant) (name : String) (subject : Subject)
    (version : String) : Decidable (RowsShow versionRows packageRows name subject version) :=
  inferInstanceAs (Decidable (_ ∨ _))

@[simp]
theorem rowsShow_nil (packageRows : List StoredGrant) (name : String) (subject : Subject)
    (version : String) : RowsShow [] packageRows name subject version :=
  Or.inl rfl

theorem rowsShow_congr {vr vr' pr pr' : List StoredGrant} (hv : ∀ g, g ∈ vr ↔ g ∈ vr')
    (hp : ∀ g, g ∈ pr ↔ g ∈ pr') (name : String) (subject : Subject) (version : String) :
    RowsShow vr pr name subject version ↔ RowsShow vr' pr' name subject version := by
  have hnil : vr = [] ↔ vr' = [] := by
    simp only [List.eq_nil_iff_forall_not_mem, hv]
  simp only [RowsShow, hnil, hv, hp]

theorem ofRows_subjectRows_gives (tier : Tier) (label : String) (rows : List StoredGrant)
    (subject : Subject) (a : Action) :
    (∃ n ∈ (Node.ofRows tier label (subjectRows rows)).toList, n.Gives subject a) ↔
      ∃ g ∈ rows, RowGives subject a g := by
  simp only [Option.mem_toList]
  rw [Node.ofRows_gives]
  simp [subjectRows, RowGives]

theorem ofRows_toList_unsealed (tier : Tier) (label : String)
    (rows : List (SubjectMatcher × List Action)) :
    ∀ n ∈ (Node.ofRows tier label rows).toList, n.isSealed = false := by
  intro n hn
  exact Node.isSealed_ofRows _ _ _ n (Option.mem_toList.mp hn)

/-- The grant filter, as one predicate on a version. -/
theorem filterByGrants_eq (svc : LocalRegistryService) (registry name : String)
    (versions : List PublishedPackage) (identity : Identity)
    (prefetched : Option RegistryGrantRows) (repo : GrantRepository) (grants : RegistryGrants)
    (vr pr : List StoredGrant) (hrepo : svc.hot.grantRepo = some repo)
    (hgrants : svc.hot.grants registry = some grants)
    (hvr : versionRows repo registry name prefetched = .ok vr)
    (hpr : packageNodeRows repo registry name prefetched = .ok pr) :
    filterByGrants svc registry name versions identity prefetched =
      .ok (versions.filter fun p =>
        (resolve (resolutionPath svc.hot grants name) (.identity identity)).holds .releasesRead ||
          decide (RowsShow vr pr name (.identity identity) p.version)) := by
  have hall : ∀ keep : PublishedPackage → Bool, (∀ p, keep p = true) →
      versions.filter keep = versions := by
    intro keep hkeep
    exact List.filter_eq_self.mpr fun p _ => hkeep p
  unfold filterByGrants
  split
  · rename_i hempty
    simp [List.isEmpty_iff.mp hempty]
  simp only [hrepo, hgrants, hvr, packageTierNode, hpr]
  by_cases hconfig : (resolve (resolutionPath svc.hot grants name)
      (.identity identity)).holds .releasesRead = true
  · rw [if_pos hconfig, hall _ (by simp [hconfig])]
  rw [if_neg hconfig]
  by_cases hnone : vr = []
  · rw [if_pos (by simp [hnone]), hall _ (by simp [RowsShow, hnone])]
  rw [if_neg (by simpa using hnone)]
  have hpackage : (resolve (resolutionPath svc.hot grants name ++
      (Node.ofRows .packageTier ("package:" ++ name) (subjectRows pr)).toList)
      (.identity identity)).holds .releasesRead = true ↔
      ∃ g ∈ pr, RowGives (.identity identity) .releasesRead g := by
    rw [holds_resolve_append _ _ (ofRows_toList_unsealed _ _ _), ofRows_subjectRows_gives]
    simp [hconfig]
  by_cases hgives : ∃ g ∈ pr, RowGives (.identity identity) .releasesRead g
  · have hsome : (Node.ofRows .packageTier ("package:" ++ name) (subjectRows pr)).isSome = true := by
      obtain ⟨g, hg, -⟩ := hgives
      have hne : subjectRows pr ≠ [] := by
        intro hnil
        simp [subjectRows] at hnil
        simp [hnil] at hg
      simp [Node.ofRows, hne]
    rw [if_pos (by simp [hsome, hpackage.mpr hgives]), hall _ (by simp [RowsShow, hgives])]
  · have hclosed : (resolve (resolutionPath svc.hot grants name ++
        (Node.ofRows .packageTier ("package:" ++ name) (subjectRows pr)).toList)
        (.identity identity)).holds .releasesRead = false := by
      rw [← Bool.not_eq_true, hpackage]
      exact hgives
    rw [if_neg (by simp [hclosed])]
    congr 1
    apply List.filter_congr
    intro p _
    rw [versionNode_eq, Bool.eq_iff_iff, holds_resolve_append _ _ (ofRows_toList_unsealed _ _ _),
      ofRows_subjectRows_gives]
    simp [hclosed, hconfig, RowsShow, hnone, hgives, rowsOfVersion, and_assoc]

end BatleHub.VersionRows
