import BatleHub.Translation
import BatleHub.Lib.SortedSearch

/-!
Which packages of a registry a caller may read, without touching storage for
each (`services/authz/filter.rs`). The scope is a second implementation of
resolution: a left fold over the namespaces that a seal resets, a fast path when
nothing can take the read back, and a binary search over the package rows. For
every verb outside the floor it answers what resolution over the whole path
answers.
-/
namespace BatleHub.ReadableScopes

open Grants Resolution Translation Lib.LastReset Lib.SortedSearch Lib.Texts

structure NamespaceRead where
  lead : String
  grantsRead : Bool
  isSealed : Bool
  deriving DecidableEq, Repr

/-- The precomputed hierarchy a scoped answer is read from. `packages` is sorted
and holds no name twice. -/
structure Scope where
  kind : RegistryKind
  registryGrantsRead : Bool
  floorSurvives : Bool
  namespaces : List NamespaceRead
  packages : List String
  deriving DecidableEq, Repr

inductive Readable where
  | everything
  | scopedTo (scope : Scope)
  deriving DecidableEq, Repr

/-- A package-tier row: the package's name, the subject, the verbs. -/
abbrev PackageRow := String × SubjectMatcher × List Action

/-- The union walked outermost first, a seal resetting what has accumulated. -/
def Scope.walk (scope : Scope) (package : String) : Bool :=
  scope.namespaces.foldl
    (fun readable ns =>
      if !namespaceMatches scope.kind ns.lead package then readable
      else if ns.isSealed then scope.floorSurvives
      else if ns.grantsRead then true
      else readable)
    scope.registryGrantsRead

/-- A package row is below every namespace, so it is looked up first. -/
def Scope.contains (scope : Scope) (package : String) : Bool :=
  if (binarySearchBy (fun n => compare n package) scope.packages).isSome then true
  else scope.walk package

/-- The name before the last `@`, if there is one: a scoped name opens with it. -/
def versionKeyPackage (key : String) : Option String :=
  match splitAtFirst '@' key.toList.reverse with
  | none => none
  | some (_, front) => if front = [] then none else some (String.ofList front.reverse)

namespace Readable

/-- The node alone holds the verb for the subject. -/
def nodeGrants (node : Node) (read : Action) (subject : Subject) : Bool :=
  (resolve [node] subject).holds read

def namespaceReads (grants : RegistryGrants) (read : Action) (subject : Subject) :
    List NamespaceRead :=
  grants.namespaces.map fun ns =>
    { lead := ns.1
      grantsRead := nodeGrants ns.2 read subject
      isSealed := ns.2.isSealed }

/-- The configured half, resolved once. Everything only when the broad tiers
grant the read and no namespace is sealed. -/
def fromRegistry (instanceNode : Option Node) (grants : RegistryGrants) (read : Action)
    (subject : Subject) : Readable :=
  let registryGrantsRead := nodeGrants grants.registry read subject ||
    instanceNode.any fun n => nodeGrants n read subject
  let namespaces := namespaceReads grants read subject
  if registryGrantsRead && !namespaces.any (fun n => n.isSealed) then .everything
  else
    .scopedTo {
      kind := grants.kind
      registryGrantsRead := registryGrantsRead
      floorSurvives := registryGrantsRead && decide (read ∈ administrativeFloor)
      namespaces := namespaces
      packages := []
    }

/-- Whether the package-tier query is worth making. -/
def needsPackageGrants : Readable → Bool
  | .everything => false
  | .scopedTo _ => true

/-- Add the packages whose rows name the subject and carry the verb. -/
def withPackageGrants (readable : Readable) (rows : List PackageRow) (read : Action)
    (subject : Subject) : Readable :=
  match readable with
  | .everything => .everything
  | .scopedTo scope =>
    let named := (rows.filter fun row =>
      decide (read ∈ row.2.2) && row.2.1.matchesSubject subject).map fun row => row.1
    .scopedTo { scope with packages := sortDedup (scope.packages ++ named) }

/-- Admit a package because a version beneath it grants the read. -/
def withVersionGrants (readable : Readable) (keys : List String) : Readable :=
  match readable with
  | .everything => .everything
  | .scopedTo scope =>
    .scopedTo { scope with packages := sortDedup (scope.packages ++ keys.filterMap versionKeyPackage) }

def contains (readable : Readable) (package : String) : Bool :=
  match readable with
  | .everything => true
  | .scopedTo scope => scope.contains package

end Readable

theorem nodeGrants_iff (node : Node) (read : Action) (subject : Subject) :
    Readable.nodeGrants node read subject = true ↔ node.Gives subject read :=
  holds_resolve_singleton node subject read

/-- The blocks that do not match are skipped, so the walk is over the nodes that
resolution would put on the path. -/
theorem walk_namespaceReads (scope : Scope) (grants : RegistryGrants) (package : String)
    (read : Action) (subject : Subject) (hkind : scope.kind = grants.kind)
    (hns : scope.namespaces = Readable.namespaceReads grants read subject) :
    scope.walk package = (grants.matching package).foldl
      (fun readable n => if n.isSealed then scope.floorSurvives
        else if Readable.nodeGrants n read subject then true else readable)
      scope.registryGrantsRead := by
  unfold Scope.walk RegistryGrants.matching
  rw [hns, hkind, Readable.namespaceReads, List.foldl_map]
  generalize scope.registryGrantsRead = acc
  induction grants.namespaces generalizing acc with
  | nil => simp
  | cons ns rest ih =>
    rw [List.foldl_cons, ih]
    by_cases hm : namespaceMatches grants.kind ns.1 package = true
    · simp [hm]
    · simp [hm]

theorem foldl_nodeGrants_iff (nodes : List Node) (read : Action) (subject : Subject)
    (acc : Bool) :
    nodes.foldl (fun readable n => if Readable.nodeGrants n read subject then true else readable)
      acc = true ↔ (∃ n ∈ nodes, n.Gives subject read) ∨ acc = true := by
  induction nodes generalizing acc with
  | nil => simp
  | cons n rest ih =>
    rw [List.foldl_cons, ih, List.exists_mem_cons_iff, ← nodeGrants_iff n]
    by_cases hn : Readable.nodeGrants n read subject = true
    · simp [hn]
    · simp [hn]

/-- The walk, as what is left after the last seal. -/
theorem walk_iff (scope : Scope) (grants : RegistryGrants) (package : String)
    (read : Action) (subject : Subject) (hkind : scope.kind = grants.kind)
    (hns : scope.namespaces = Readable.namespaceReads grants read subject) :
    scope.walk package = true ↔
      (∃ n ∈ (grants.matching package).rtakeWhile (fun n => !n.isSealed),
        n.Gives subject read) ∨
      (if ∃ n ∈ grants.matching package, n.isSealed = true then scope.floorSurvives
        else scope.registryGrantsRead) = true := by
  rw [walk_namespaceReads scope grants package read subject hkind hns,
    foldl_reset Node.isSealed, foldl_nodeGrants_iff]

/-- The package node of the path, folded from the rows that name the package. -/
def packageNode (rows : List PackageRow) (package : String) : Option Node :=
  Node.ofRows .packageTier ("package:" ++ package)
    ((rows.filter fun row => decide (row.1 = package)).map fun row => row.2)

/-- The names the package rows add are those whose node gives the verb. -/
theorem mem_named_iff (rows : List PackageRow) (package : String) (read : Action)
    (subject : Subject) :
    package ∈ (rows.filter fun row =>
        decide (read ∈ row.2.2) && row.2.1.matchesSubject subject).map (fun row => row.1) ↔
      ∃ n, packageNode rows package = some n ∧ n.Gives subject read := by
  rw [packageNode, Node.ofRows_gives]
  simp only [List.mem_map, List.mem_filter, Bool.and_eq_true, decide_eq_true_eq]
  constructor
  · intro hex
    obtain ⟨row, ⟨hrow, hread, hmatch⟩, rfl⟩ := hex
    exact ⟨row.2, ⟨row, ⟨hrow, rfl⟩, rfl⟩, hmatch, hread⟩
  · intro hex
    obtain ⟨-, ⟨row, ⟨hrow, rfl⟩, rfl⟩, hmatch, hread⟩ := hex
    exact ⟨row, ⟨hrow, hread, hmatch⟩, rfl⟩

/-- Resolution over the whole path, for a verb outside the floor and a registry
node that is no seal. -/
theorem holds_path_iff (instanceNode : Option Node) (grants : RegistryGrants)
    (hopen : grants.registry.isSealed = false) (rows : List PackageRow) (subject : Subject)
    (package : String) (verb : Action) (hverb : verb ∉ administrativeFloor) :
    (resolve (instanceNode.toList ++ grants.pathFor package ++
      (packageNode rows package).toList) subject).holds verb = true ↔
      ((∃ n ∈ (grants.matching package).rtakeWhile (fun n => !n.isSealed),
          n.Gives subject verb) ∨
        ((∀ n ∈ grants.matching package, n.isSealed = false) ∧
          (grants.registry.Gives subject verb ∨
            ∃ n, instanceNode = some n ∧ n.Gives subject verb))) ∨
      ∃ n, packageNode rows package = some n ∧ n.Gives subject verb := by
  have hbelow : ∀ n ∈ (packageNode rows package).toList, n.isSealed = false := by
    intro n hn
    exact Node.isSealed_ofRows _ _ _ n (Option.mem_toList.mp hn)
  rw [holds_resolve_append _ _ hbelow, holds_configured_iff]
  simp [hverb, hopen]

theorem scoped_contains_iff (scope : Scope) (hpackages : scope.packages.Pairwise (· ≤ ·))
    (package : String) :
    scope.contains package = true ↔ package ∈ scope.packages ∨ scope.walk package = true := by
  rw [← binarySearchBy_isSome_iff scope.packages hpackages, Scope.contains]
  split
  · rename_i hfound
    simp [hfound]
  · rename_i hmissing
    simp [hmissing]

theorem broad_iff (instanceNode : Option Node) (grants : RegistryGrants) (verb : Action)
    (subject : Subject) :
    (Readable.nodeGrants grants.registry verb subject ||
      instanceNode.any fun n => Readable.nodeGrants n verb subject) = true ↔
      grants.registry.Gives subject verb ∨ ∃ n, instanceNode = some n ∧ n.Gives subject verb := by
  simp [nodeGrants_iff, Option.any_eq_true]

/-- The fast path: the broad tiers grant the read and no matching block is a seal. -/
theorem fromRegistry_everything (instanceNode : Option Node) (grants : RegistryGrants)
    (verb : Action) (subject : Subject)
    (h : Readable.fromRegistry instanceNode grants verb subject = .everything)
    (package : String) :
    (grants.registry.Gives subject verb ∨
      ∃ n, instanceNode = some n ∧ n.Gives subject verb) ∧
      ∀ n ∈ grants.matching package, n.isSealed = false := by
  unfold Readable.fromRegistry at h
  dsimp only at h
  split at h
  · rename_i hfast
    rw [Bool.and_eq_true, broad_iff] at hfast
    refine ⟨hfast.1, ?_⟩
    intro n hn
    obtain ⟨ns, hns, rfl⟩ := List.mem_map.mp hn
    have hall := hfast.2
    simp only [Readable.namespaceReads, Bool.not_eq_true', List.any_eq_false,
      List.forall_mem_map, Bool.not_eq_true] at hall
    exact hall ns (List.mem_filter.mp hns).1
  · simp at h

theorem holds_of_everything (instanceNode : Option Node) (grants : RegistryGrants)
    (hopen : grants.registry.isSealed = false) (verb : Action) (subject : Subject)
    (h : Readable.fromRegistry instanceNode grants verb subject = .everything)
    (package : String) :
    (resolve (instanceNode.toList ++ grants.pathFor package) subject).holds verb = true := by
  obtain ⟨hbroad, hclear⟩ := fromRegistry_everything instanceNode grants verb subject h package
  rw [holds_configured_iff]
  exact Or.inr (Or.inl ⟨hclear, hbroad.imp id (fun htop => ⟨hopen, htop⟩)⟩)

/-- The scope refines resolution: for every verb outside the floor a package is
contained exactly when the whole path to it holds the verb. -/
theorem contains_iff_resolve (registry : String) (kind : RegistryKind) (rbac : RbacSnapshot)
    (explicit : Option GrantMap) (namespaces : List NamespaceSpec) (writeMode : WriteMode)
    (registryShadow : Option DryRun) (grants : RegistryGrants)
    (hbuilt : buildGrants registry kind rbac explicit namespaces writeMode registryShadow =
      .ok grants)
    (instanceNode : Option Node) (rows : List PackageRow) (subject : Subject) (package : String)
    (verb : Action) (hverb : verb ∉ administrativeFloor) :
    ((Readable.fromRegistry instanceNode grants verb subject).withPackageGrants rows verb
      subject).contains package = true ↔
    (resolve (instanceNode.toList ++ grants.pathFor package ++
      (packageNode rows package).toList) subject).holds verb = true := by
  have hopen := buildGrants_registry_unsealed registry kind rbac explicit namespaces writeMode
    registryShadow grants hbuilt
  rw [holds_path_iff instanceNode grants hopen rows subject package verb hverb]
  cases hread : Readable.fromRegistry instanceNode grants verb subject with
  | everything =>
    obtain ⟨hbroad, hclear⟩ := fromRegistry_everything instanceNode grants verb subject hread
      package
    exact iff_of_true rfl (Or.inl (Or.inr ⟨hclear, hbroad⟩))
  | scopedTo scope =>
    unfold Readable.fromRegistry at hread
    dsimp only at hread
    split at hread
    · simp at hread
    obtain rfl := Readable.scopedTo.inj hread
    simp only [Readable.withPackageGrants, Readable.contains]
    rw [scoped_contains_iff _ (sortDedup_pairwise _), mem_sortDedup, List.nil_append,
      mem_named_iff, walk_iff _ grants package verb subject rfl rfl, or_comm]
    apply or_congr_left
    apply or_congr_right
    by_cases hseal : ∃ n ∈ grants.matching package, n.isSealed = true
    · have hnone : ¬ ∀ n ∈ grants.matching package, n.isSealed = false := by simpa using hseal
      simp [hseal, hnone, hverb]
    · have hclear : ∀ n ∈ grants.matching package, n.isSealed = false := by simpa using hseal
      rw [if_neg hseal, broad_iff]
      exact (and_iff_right hclear).symm

/-- A snapshot that lists nothing for anyone. -/
def plainSnapshot : RbacSnapshot where
  anonymous := []
  user := []
  admin := []
  groups := []
  explore := ⟨false, false, false⟩
  groups_nodup := by decide

theorem contains_by_package_row :
    ∃ grants, buildGrants "npm" .npm plainSnapshot none [⟨"@acme", some GrantMap.new, none⟩]
        .accepts none = .ok grants ∧
      ((Readable.fromRegistry (some (instanceNode none)) grants .releasesRead
        (.identity ⟨some "bob", .user, none, []⟩)).withPackageGrants
          [("@acme/app", .user "bob", [.releasesRead])] .releasesRead
          (.identity ⟨some "bob", .user, none, []⟩)).contains "@acme/app" = true := by
  refine ⟨_, rfl, (contains_iff_resolve "npm" .npm plainSnapshot none
    [⟨"@acme", some GrantMap.new, none⟩] .accepts none _ rfl (some (instanceNode none))
    [("@acme/app", .user "bob", [.releasesRead])] (.identity ⟨some "bob", .user, none, []⟩)
    "@acme/app" .releasesRead (by decide)).mpr ?_⟩
  decide

end BatleHub.ReadableScopes
