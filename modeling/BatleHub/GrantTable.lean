import BatleHub.Grants

/-!
The stored grant rows (`ports/governance/grants.rs`) and their in-memory table.
A repository is what it answers to each read; the table answers by filtering its
rows, one row for each subject on a node. No row is a seal, since writing one
with no verbs is refused.
-/
namespace BatleHub.GrantTable

open Grants Lib.Texts

/-- Which of the two stored tiers a row is on. -/
inductive NodeKind where
  | package
  | version
  deriving DecidableEq, Repr

def NodeKind.asStr : NodeKind → String
  | .package => "package"
  | .version => "version"

/-- A version node is keyed by `name@version`. -/
def versionNodeKey (package version : String) : String := package ++ "@" ++ version

structure StoredGrant where
  registry : String
  nodeKind : NodeKind
  nodeKey : String
  subject : SubjectMatcher
  actions : List Action
  grantedBy : Option String
  deriving DecidableEq, Repr

/-- The reads of the port. A repository may fail on any of them. -/
structure GrantRepository where
  grantsFor : String → String → Option String → Except CoreError (List StoredGrant)
  packageGrantsInRegistry : String → Except CoreError (List StoredGrant)
  versionGrantsInRegistry : String → Except CoreError (List StoredGrant)
  versionGrantsForPackage : String → String → Except CoreError (List StoredGrant)
  grantsOnNode : String → NodeKind → String → Except CoreError (List StoredGrant)

/-- The table's key: one row for each subject on a node. -/
def StoredGrant.key (g : StoredGrant) : String × NodeKind × String × String :=
  (g.registry, g.nodeKind, g.nodeKey, g.subject.asString)

/-- The rows, in some order, under distinct keys and none without verbs. -/
structure InMemoryGrantRepository where
  rows : List StoredGrant
  keys_nodup : (rows.map StoredGrant.key).Nodup
  actions_ne_nil : ∀ g ∈ rows, g.actions ≠ []
  deriving Repr

/-- Sort by a pair of texts, the first one first. -/
def sortByPair (key : StoredGrant → String × String) (rows : List StoredGrant) :
    List StoredGrant :=
  rows.insertionSort fun a b =>
    (key a).1 < (key b).1 ∨ ((key a).1 = (key b).1 ∧ (key a).2 ≤ (key b).2)

@[simp]
theorem mem_sortByPair (key : StoredGrant → String × String) (rows : List StoredGrant)
    (g : StoredGrant) : g ∈ sortByPair key rows ↔ g ∈ rows :=
  List.mem_insertionSort _

namespace InMemoryGrantRepository

def empty : InMemoryGrantRepository := ⟨[], by simp, by simp⟩

/-- Whether the row is on the coordinate's package node or on its version node. -/
def onCoordinate (registry package : String) (version : Option String) (g : StoredGrant) : Bool :=
  decide (g.registry = registry) &&
    match g.nodeKind with
    | .package => decide (g.nodeKey = package)
    | .version => decide (version.map (versionNodeKey package) = some g.nodeKey)

def grantsFor (t : InMemoryGrantRepository) (registry package : String)
    (version : Option String) : List StoredGrant :=
  if package = "" then []
  else
    sortByPair (fun g => (g.nodeKind.asStr, g.subject.asString))
      (t.rows.filter (onCoordinate registry package version))

def packageGrantsInRegistry (t : InMemoryGrantRepository) (registry : String) :
    List StoredGrant :=
  sortByPair (fun g => (g.nodeKey, g.subject.asString))
    (t.rows.filter fun g => decide (g.registry = registry) && decide (g.nodeKind = .package))

def versionGrantsInRegistry (t : InMemoryGrantRepository) (registry : String) :
    List StoredGrant :=
  t.rows.filter fun g => decide (g.registry = registry) && decide (g.nodeKind = .version)

/-- Matched by `package@`, so that a longer name's rows are not taken. -/
def versionGrantsForPackage (t : InMemoryGrantRepository) (registry package : String) :
    List StoredGrant :=
  if package = "" then []
  else
    t.rows.filter fun g => decide (g.registry = registry) && decide (g.nodeKind = .version) &&
      startsWith g.nodeKey (package ++ "@")

def grantsOnNode (t : InMemoryGrantRepository) (registry : String) (kind : NodeKind)
    (nodeKey : String) : List StoredGrant :=
  sortByPair (fun g => (g.subject.asString, ""))
    (t.rows.filter fun g => decide (g.registry = registry) && decide (g.nodeKind = kind) &&
      decide (g.nodeKey = nodeKey))

/-- The rows a coordinate is answered with: those on its package node and, where it has a
version, those on its version node. -/
theorem mem_grantsFor (t : InMemoryGrantRepository) (registry package : String)
    (version : Option String) (g : StoredGrant) :
    g ∈ t.grantsFor registry package version ↔
      package ≠ "" ∧ g ∈ t.rows ∧ g.registry = registry ∧
        (g.nodeKind = .package ∧ g.nodeKey = package ∨
          g.nodeKind = .version ∧ version.map (versionNodeKey package) = some g.nodeKey) := by
  unfold grantsFor onCoordinate
  by_cases hname : package = ""
  · simp [hname]
  · cases hkind : g.nodeKind <;> simp [hname, hkind]

/-- The table as a repository: no read of it fails. -/
def repository (t : InMemoryGrantRepository) : GrantRepository where
  grantsFor registry package version := .ok (t.grantsFor registry package version)
  packageGrantsInRegistry registry := .ok (t.packageGrantsInRegistry registry)
  versionGrantsInRegistry registry := .ok (t.versionGrantsInRegistry registry)
  versionGrantsForPackage registry package := .ok (t.versionGrantsForPackage registry package)
  grantsOnNode registry kind nodeKey := .ok (t.grantsOnNode registry kind nodeKey)

/-- Write one subject's grant on a node, replacing that subject's row. -/
def putGrant (t : InMemoryGrantRepository) (grant : StoredGrant) :
    Except CoreError InMemoryGrantRepository :=
  if h : grant.actions = [] then
    .error (.invalidInput ("a grant with no permissions is a seal, and seals are a config-file " ++
      "construct only (RFC 0015 §4.3)"))
  else
    .ok {
      rows := t.rows.filter (fun g => decide (g.key ≠ grant.key)) ++ [grant]
      keys_nodup := by
        rw [List.map_append, List.nodup_append]
        refine ⟨t.keys_nodup.sublist (List.filter_sublist.map _), by simp, ?_⟩
        intro a ha b hb heq
        subst heq
        obtain ⟨g, hg, rfl⟩ := List.mem_map.mp ha
        have hne := (List.mem_filter.mp hg).2
        simp_all
      actions_ne_nil := by
        intro g hg
        rcases List.mem_append.mp hg with hg | hg
        · exact t.actions_ne_nil g (List.mem_filter.mp hg).1
        · rw [List.mem_singleton.mp hg]
          exact h
    }

/-- Keep the rows a predicate selects: every removal is one of these. -/
def retain (t : InMemoryGrantRepository) (keep : StoredGrant → Bool) :
    InMemoryGrantRepository where
  rows := t.rows.filter keep
  keys_nodup := t.keys_nodup.sublist (List.filter_sublist.map _)
  actions_ne_nil g hg := t.actions_ne_nil g (List.mem_filter.mp hg).1

/-- Remove one subject's grant from a node. Absent is not an error. -/
def deleteGrant (t : InMemoryGrantRepository) (registry : String) (kind : NodeKind)
    (nodeKey : String) (subject : SubjectMatcher) : InMemoryGrantRepository :=
  t.retain fun g => decide (g.key ≠ (registry, kind, nodeKey, subject.asString))

end InMemoryGrantRepository

end BatleHub.GrantTable
