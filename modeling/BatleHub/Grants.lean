import BatleHub.Vocabulary
import BatleHub.Lib.Texts
import Mathlib.Data.List.Sort
import Mathlib.Data.Finset.Insert

/-!
Grants on a node (`entities/grant.rs`): the subject forms a grant can name, the
map written on one node, the node itself and the set a resolution fills. What a
map gives a caller is the predicate `Gives`; adding a grant widens it by exactly
the grant, and a map that anything was ever written to is not a seal.
-/
namespace BatleHub.Grants

open Lib.Texts

/-- Which providers a `group:` subject accepts. -/
inductive GroupProvider where
  | any
  | named (provider : String)
  | unprefixed
  deriving DecidableEq, Repr, Ord

/-- The forms a grant's left-hand side can take. The derived order is the one
the entries of a map are sorted by. -/
inductive SubjectMatcher where
  | anyone
  | role (role : Role)
  | group (provider : GroupProvider) (name : String)
  | user (id : String)
  | token (name : String)
  deriving DecidableEq, Repr, Ord

structure SubjectParseError where
  subject : String
  deriving DecidableEq, Repr

/-- Does the identity's group string `g` match this `group:` subject? Split on
the first colon, so a name containing one stays one name. -/
def groupMatches (g : String) (provider : GroupProvider) (name : String) : Bool :=
  match splitOnce g ':', provider with
  | some (gProvider, gName), .any => gName == name && !(gProvider == "")
  | some (gProvider, gName), .named p => gName == name && gProvider == p
  | some _, .unprefixed => false
  | none, .unprefixed => g == name
  | none, _ => false

namespace SubjectMatcher

/-- Whether this matcher names `subject`. No principal is a machine token. -/
def matchesSubject (m : SubjectMatcher) (subject : Subject) : Bool :=
  match m with
  | .anyone => true
  | .role r => subject.caller.hasRoleAtLeast r
  | .group provider name => subject.caller.groups.any fun g => groupMatches g provider name
  | .user id => subject.caller.userId == some id
  | .token _ => false

def asString : SubjectMatcher → String
  | .anyone => "*"
  | .role r => "role:" ++ r.toString
  | .group provider name =>
    let p := match provider with
      | .any => "*"
      | .named p => p
      | .unprefixed => ""
    "group:" ++ p ++ ":" ++ name
  | .user u => "user:" ++ u
  | .token t => "token:" ++ t

end SubjectMatcher

/-- The grants written on one node. An empty map is a seal, not an absence. -/
structure GrantMap where
  entries : List (SubjectMatcher × List Action)
  deriving DecidableEq, Repr

namespace GrantMap

def new : GrantMap := ⟨[]⟩

def pushMissing (existing actions : List Action) : List Action :=
  actions.foldl (fun acc a => if a ∈ acc then acc else acc ++ [a]) existing

/-- Union into the first entry for `subject`, or append one. -/
def addEntry (subject : SubjectMatcher) (actions : List Action) :
    List (SubjectMatcher × List Action) → List (SubjectMatcher × List Action)
  | [] => [(subject, actions)]
  | (s, existing) :: rest =>
    if s = subject then (s, pushMissing existing actions) :: rest
    else (s, existing) :: addEntry subject actions rest

/-- Add a subject's verbs. Repeating a subject unions rather than replaces. -/
def grant (m : GrantMap) (subject : SubjectMatcher) (actions : List Action) : GrantMap :=
  ⟨(addEntry subject actions m.entries).insertionSort
    fun a b => (compare a.1 b.1).isLE = true⟩

/-- Fold rows into the map, one grant a row. -/
def grantAll (m : GrantMap) (rows : List (SubjectMatcher × List Action)) : GrantMap :=
  rows.foldl (fun m row => m.grant row.1 row.2) m

def isSealed (m : GrantMap) : Bool := m.entries.isEmpty

/-- The verbs this node grants `subject`, with the subject form that matched. -/
def forSubject (m : GrantMap) (subject : Subject) : List (Action × SubjectMatcher) :=
  (m.entries.filter fun e => e.1.matchesSubject subject).flatMap fun e => e.2.map fun a => (a, e.1)

/-- The map grants `subject` the verb through some entry. -/
def Gives (m : GrantMap) (subject : Subject) (action : Action) : Prop :=
  ∃ e ∈ m.entries, e.1.matchesSubject subject = true ∧ action ∈ e.2

instance (m : GrantMap) (subject : Subject) (action : Action) :
    Decidable (m.Gives subject action) :=
  inferInstanceAs (Decidable (∃ e ∈ m.entries, e.1.matchesSubject subject = true ∧ action ∈ e.2))

theorem mem_pushMissing (existing actions : List Action) (a : Action) :
    a ∈ pushMissing existing actions ↔ a ∈ existing ∨ a ∈ actions := by
  unfold pushMissing
  induction actions generalizing existing with
  | nil => simp
  | cons b rest ih =>
    rw [List.foldl_cons, ih]
    by_cases hb : b ∈ existing
    · rw [if_pos hb, List.mem_cons]
      constructor
      · intro hcase
        rcases hcase with h | h
        · exact Or.inl h
        · exact Or.inr (Or.inr h)
      · intro hcase
        rcases hcase with h | rfl | h
        · exact Or.inl h
        · exact Or.inl hb
        · exact Or.inr h
    · rw [if_neg hb, List.mem_append, List.mem_singleton, List.mem_cons, or_assoc]

theorem addEntry_gives (subject : SubjectMatcher) (actions : List Action)
    (entries : List (SubjectMatcher × List Action)) (caller : Subject) (a : Action) :
    (∃ e ∈ addEntry subject actions entries, e.1.matchesSubject caller = true ∧ a ∈ e.2) ↔
      (∃ e ∈ entries, e.1.matchesSubject caller = true ∧ a ∈ e.2) ∨
        (subject.matchesSubject caller = true ∧ a ∈ actions) := by
  induction entries with
  | nil => simp [addEntry]
  | cons e rest ih =>
    obtain ⟨s, existing⟩ := e
    by_cases hs : s = subject
    · subst hs
      simp only [addEntry, if_pos, List.mem_cons, exists_eq_or_imp, mem_pushMissing]
      rw [and_or_left, or_right_comm]
    · simp only [addEntry, if_neg hs, List.mem_cons, exists_eq_or_imp, ih, or_assoc]

/-- A grant adds its verbs to whoever its subject matches, and nothing else. -/
@[simp]
theorem gives_grant (m : GrantMap) (subject : SubjectMatcher) (actions : List Action)
    (caller : Subject) (a : Action) :
    (m.grant subject actions).Gives caller a ↔
      m.Gives caller a ∨ (subject.matchesSubject caller = true ∧ a ∈ actions) := by
  rw [Gives, Gives, ← addEntry_gives]
  simp only [grant, List.mem_insertionSort]

@[simp]
theorem gives_new (caller : Subject) (a : Action) : ¬ new.Gives caller a := by
  simp [Gives, new]

/-- Nothing that was written is ever a seal, not even a row with no verbs. -/
@[simp]
theorem isSealed_grant (m : GrantMap) (subject : SubjectMatcher) (actions : List Action) :
    (m.grant subject actions).isSealed = false := by
  have hne : addEntry subject actions m.entries ≠ [] := by
    cases m.entries with
    | nil => simp [addEntry]
    | cons e rest =>
      unfold addEntry
      split <;> simp
  rw [isSealed, grant, List.isEmpty_eq_false_iff]
  intro hnil
  have hperm := List.perm_insertionSort
    (fun a b : SubjectMatcher × List Action => (compare a.1 b.1).isLE = true)
    (addEntry subject actions m.entries)
  exact hne ((hnil ▸ hperm.symm : (addEntry subject actions m.entries).Perm []).eq_nil)

theorem gives_grantAll (m : GrantMap) (rows : List (SubjectMatcher × List Action))
    (caller : Subject) (a : Action) :
    (m.grantAll rows).Gives caller a ↔
      m.Gives caller a ∨ ∃ row ∈ rows, row.1.matchesSubject caller = true ∧ a ∈ row.2 := by
  unfold grantAll
  induction rows generalizing m with
  | nil => simp
  | cons row rest ih => rw [List.foldl_cons, ih, gives_grant, or_assoc, List.exists_mem_cons_iff]

theorem isSealed_grantAll (m : GrantMap) (rows : List (SubjectMatcher × List Action))
    (h : m.isSealed = false ∨ rows ≠ []) : (m.grantAll rows).isSealed = false := by
  unfold grantAll
  induction rows generalizing m with
  | nil => exact h.resolve_right (fun hne => hne rfl)
  | cons row rest ih => exact ih _ (Or.inl (isSealed_grant m row.1 row.2))

theorem gives_iff_mem_forSubject (m : GrantMap) (subject : Subject) (a : Action) :
    m.Gives subject a ↔ ∃ matcher, (a, matcher) ∈ m.forSubject subject := by
  unfold Gives forSubject
  constructor
  · intro hex
    obtain ⟨e, he, hmatch, ha⟩ := hex
    refine ⟨e.1, List.mem_flatMap.mpr ⟨e, List.mem_filter.mpr ⟨he, hmatch⟩, ?_⟩⟩
    exact List.mem_map.mpr ⟨a, ha, rfl⟩
  · intro hex
    obtain ⟨matcher, h⟩ := hex
    obtain ⟨e, he, hmem⟩ := List.mem_flatMap.mp h
    obtain ⟨b, hb, heq⟩ := List.mem_map.mp hmem
    obtain ⟨rfl, rfl⟩ := Prod.mk.inj heq
    obtain ⟨hin, hmatch⟩ := List.mem_filter.mp he
    exact ⟨e, hin, hmatch, hb⟩

theorem not_gives_of_isSealed (m : GrantMap) (h : m.isSealed = true) (subject : Subject)
    (a : Action) : ¬ m.Gives subject a := by
  intro hex
  obtain ⟨e, he, -⟩ := hex
  rw [isSealed, List.isEmpty_iff] at h
  simp [h] at he

end GrantMap

/-- A calendar day, counted from a fixed origin. -/
abbrev NaiveDate := ℤ

/-- Shadow mode: the node's grants are recorded, not enforced, until that day. -/
structure DryRun where
  untilDay : NaiveDate
  deriving DecidableEq, Repr

def DryRun.isActive (d : DryRun) (today : NaiveDate) : Bool := decide (today ≤ d.untilDay)

/-- One node on the path. `none` inherits, an empty map seals, a nonempty one
adds. -/
structure Node where
  tier : Tier
  label : String
  grants : Option GrantMap
  dryRun : Option DryRun
  deriving DecidableEq, Repr

namespace Node

def new (tier : Tier) (label : String) (grants : Option GrantMap) : Node :=
  ⟨tier, label, grants, none⟩

def shadowed (n : Node) (dryRun : Option DryRun) : Node := { n with dryRun := dryRun }

def isSealed (n : Node) : Bool := n.grants.any GrantMap.isSealed

/-- The node on its own grants `subject` the verb. -/
def Gives (n : Node) (subject : Subject) (action : Action) : Prop :=
  ∃ m, n.grants = some m ∧ m.Gives subject action

instance (n : Node) (subject : Subject) (action : Action) : Decidable (n.Gives subject action) :=
  decidable_of_iff (n.grants.any fun m => decide (m.Gives subject action)) <| by
    cases h : n.grants <;> simp [Gives, h]

theorem not_gives_of_isSealed (n : Node) (h : n.isSealed = true) (subject : Subject)
    (a : Action) : ¬ n.Gives subject a := by
  intro hex
  obtain ⟨m, hm, hgives⟩ := hex
  rw [isSealed, hm, Option.any_some] at h
  exact m.not_gives_of_isSealed h subject a hgives

/-- One node folded from every row of a tier. No rows is no node, not a seal. -/
def ofRows (tier : Tier) (label : String) (rows : List (SubjectMatcher × List Action)) :
    Option Node :=
  if rows.isEmpty then none else some (new tier label (some (GrantMap.new.grantAll rows)))

theorem isSealed_ofRows (tier : Tier) (label : String)
    (rows : List (SubjectMatcher × List Action)) (n : Node) (h : ofRows tier label rows = some n) :
    n.isSealed = false := by
  unfold ofRows at h
  split at h
  · simp at h
  · rename_i hrows
    rw [← Option.some.inj h, isSealed, new, Option.any_some]
    exact GrantMap.isSealed_grantAll _ _ (Or.inr (by simpa using hrows))

theorem ofRows_gives (tier : Tier) (label : String) (rows : List (SubjectMatcher × List Action))
    (subject : Subject) (a : Action) :
    (∃ n, ofRows tier label rows = some n ∧ n.Gives subject a) ↔
      ∃ row ∈ rows, row.1.matchesSubject subject = true ∧ a ∈ row.2 := by
  unfold ofRows
  split
  · rename_i hrows
    simp [List.isEmpty_iff.mp hrows]
  · simp [Gives, new, GrantMap.gives_grantAll]

end Node

/-- Where one verb came from: the node's label and the subject form. -/
structure Provenance where
  action : Action
  grantedBy : String
  subject : SubjectMatcher
  deriving DecidableEq, Repr

/-- What a subject may do, after resolution. -/
structure GrantSet where
  actions : Finset Action
  provenance : List Provenance
  deriving DecidableEq

namespace GrantSet

def empty : GrantSet := ⟨∅, []⟩

def holds (s : GrantSet) (action : Action) : Bool := decide (action ∈ s.actions)

/-- First writer wins: a verb granted twice reports the outermost node. -/
def add (s : GrantSet) (action : Action) (node : String) (subject : SubjectMatcher) : GrantSet :=
  if action ∈ s.actions then s
  else ⟨insert action s.actions, s.provenance ++ [⟨action, node, subject⟩]⟩

theorem holds_add (s : GrantSet) (action : Action) (node : String) (subject : SubjectMatcher)
    (a : Action) : (s.add action node subject).holds a = true ↔ s.holds a = true ∨ a = action := by
  unfold add holds
  split
  · rename_i hmem
    simp only [decide_eq_true_eq]
    exact ⟨Or.inl, fun h => h.elim id (fun h => h ▸ hmem)⟩
  · simp only [decide_eq_true_eq, Finset.mem_insert]
    exact or_comm

end GrantSet

end BatleHub.Grants
