import BatleHub.Translation

/-!
The role-and-group rule that decided requests before grants (`rules/rbac.rs`),
compared with the translated registry node. Both sides are brought to the same
words: a verb is permitted by a role list, by a key equal to a group string, or
by a `*:` key and a group that has a provider. The rule also lets a `*:` key
match a group string whose provider is empty, and the translation does not.
-/
namespace BatleHub.RbacRules

open Grants Resolution Translation Lib.Texts

/-- The two maps of `[registries.rbac]`, resolved to verbs. -/
structure RbacRule where
  permissions : Role → Option (List Action)
  groupPermissions : List (String × List Action)

inductive RuleDecision where
  | allow
  | deny (reason : String)
  deriving DecidableEq, Repr

namespace RbacRule

/-- The levels a role inherits, its own first. -/
def rolesToCheck : Role → List Role
  | .admin => [.admin, .user, .anonymous]
  | .user => [.user, .anonymous]
  | .anonymous => [.anonymous]

def isPermitted (rule : RbacRule) (role : Role) (action : Action) : Bool :=
  (rolesToCheck role).any fun r => (rule.permissions r).any fun perms => decide (action ∈ perms)

def permsAllow (rule : RbacRule) (key : String) (action : Action) : Bool :=
  (rule.groupPermissions.lookup key).any fun perms => decide (action ∈ perms)

/-- An exact key first, then the `*:` key rebuilt from what follows the first
colon. -/
def isPermittedByGroup (rule : RbacRule) (groups : List String) (action : Action) : Bool :=
  groups.any fun g =>
    rule.permsAllow g action ||
      (splitOnce g ':').any fun parts => rule.permsAllow ("*:" ++ parts.2) action

def evaluate (rule : RbacRule) (identity : Identity) (action : Action) : RuleDecision :=
  if rule.isPermitted identity.role action || rule.isPermittedByGroup identity.groups action then
    .allow
  else
    .deny ("role '" ++ identity.role.toString ++ "' is not permitted to perform '" ++
      action.asStr ++ "' on this registry")

/-- The rule a snapshot configures. -/
def ofSnapshot (rbac : RbacSnapshot) : RbacRule where
  permissions
    | .anonymous => some rbac.anonymous
    | .user => some rbac.user
    | .admin => some rbac.admin
  groupPermissions := rbac.groups

end RbacRule

/-- A role list at or below the caller's role names the verb. -/
def RolePermits (rbac : RbacSnapshot) (role : Role) (action : Action) : Prop :=
  action ∈ rbac.anonymous ∨
    (Role.rank .user ≤ role.rank ∧ action ∈ rbac.user) ∨
    (Role.rank .admin ≤ role.rank ∧ action ∈ rbac.admin)

/-- The key is the group string itself, or `*:name` for a group `provider:name`
whose provider satisfies `accepted`. -/
def KeyCovers (accepted : String → Prop) (key g : String) : Prop :=
  key = g ∨ ∃ provider name, splitOnce g ':' = some (provider, name) ∧ accepted provider ∧
    key = "*:" ++ name

/-- Some key covering one of the groups lists the verb. -/
def GroupPermits (accepted : String → Prop) (rbac : RbacSnapshot) (groups : List String)
    (action : Action) : Prop :=
  ∃ e ∈ rbac.groups, (∃ g ∈ groups, KeyCovers accepted e.1 g) ∧ action ∈ e.2

theorem isPermitted_ofSnapshot (rbac : RbacSnapshot) (role : Role) (action : Action) :
    (RbacRule.ofSnapshot rbac).isPermitted role action = true ↔ RolePermits rbac role action := by
  cases role with
  | anonymous =>
    simp [RbacRule.isPermitted, RbacRule.rolesToCheck, RbacRule.ofSnapshot, RolePermits, Role.rank]
  | user =>
    simp [RbacRule.isPermitted, RbacRule.rolesToCheck, RbacRule.ofSnapshot, RolePermits, Role.rank,
      or_comm]
  | admin =>
    simp [RbacRule.isPermitted, RbacRule.rolesToCheck, RbacRule.ofSnapshot, RolePermits, Role.rank]
    constructor <;> (rintro (h | h | h) <;> simp [h])

theorem lookup_eq_some_iff {l : List (String × List Action)} (hl : (l.map Prod.fst).Nodup)
    (key : String) (actions : List Action) :
    l.lookup key = some actions ↔ (key, actions) ∈ l := by
  induction l with
  | nil => simp
  | cons e rest ih =>
    obtain ⟨k, as⟩ := e
    rw [List.map_cons, List.nodup_cons] at hl
    by_cases hk : key = k
    · subst hk
      have hfresh : ∀ bs, (key, bs) ∉ rest := by
        intro bs hbs
        exact hl.1 (List.mem_map.mpr ⟨(key, bs), hbs, rfl⟩)
      simp [hfresh, eq_comm]
    · have hbeq : (key == k) = false := by simpa using hk
      simp [List.lookup_cons, hbeq, ih hl.2, hk]

theorem permsAllow_ofSnapshot (rbac : RbacSnapshot) (key : String) (action : Action) :
    (RbacRule.ofSnapshot rbac).permsAllow key action = true ↔
      ∃ e ∈ rbac.groups, e.1 = key ∧ action ∈ e.2 := by
  have hlookup := fun actions => lookup_eq_some_iff rbac.groups_nodup key actions
  simp only [RbacRule.permsAllow, RbacRule.ofSnapshot, Option.any_eq_true, decide_eq_true_eq,
    hlookup]
  constructor
  · intro hex
    obtain ⟨actions, he, ha⟩ := hex
    exact ⟨(key, actions), he, rfl, ha⟩
  · intro hex
    obtain ⟨⟨k, actions⟩, he, rfl, ha⟩ := hex
    exact ⟨actions, he, ha⟩

theorem isPermittedByGroup_ofSnapshot (rbac : RbacSnapshot) (groups : List String)
    (action : Action) :
    (RbacRule.ofSnapshot rbac).isPermittedByGroup groups action = true ↔
      GroupPermits (fun _ => True) rbac groups action := by
  simp only [RbacRule.isPermittedByGroup, List.any_eq_true, Bool.or_eq_true, Option.any_eq_true,
    permsAllow_ofSnapshot]
  constructor
  · intro hex
    obtain ⟨g, hg, ⟨e, he, rfl, ha⟩ | ⟨⟨provider, name⟩, hsplit, e, he, hkey, ha⟩⟩ := hex
    · exact ⟨e, he, ⟨e.1, hg, Or.inl rfl⟩, ha⟩
    · exact ⟨e, he, ⟨g, hg, Or.inr ⟨provider, name, hsplit, trivial, hkey⟩⟩, ha⟩
  · intro hex
    obtain ⟨e, he, ⟨g, hg, rfl | ⟨provider, name, hsplit, -, hkey⟩⟩, ha⟩ := hex
    · exact ⟨e.1, hg, Or.inl ⟨e, he, rfl, ha⟩⟩
    · exact ⟨g, hg, Or.inr ⟨(provider, name), hsplit, e, he, hkey, ha⟩⟩

/-- What the rule answers. -/
theorem evaluate_ofSnapshot (rbac : RbacSnapshot) (identity : Identity) (action : Action) :
    (RbacRule.ofSnapshot rbac).evaluate identity action = .allow ↔
      RolePermits rbac identity.role action ∨
        GroupPermits (fun _ => True) rbac identity.groups action := by
  rw [← isPermitted_ofSnapshot, ← isPermittedByGroup_ofSnapshot, ← Bool.or_eq_true]
  unfold RbacRule.evaluate
  split
  · rename_i h
    simp [h]
  · rename_i h
    simp [h]

theorem splitOnce_star (name : String) : splitOnce ("*:" ++ name) ':' = some ("*", name) := by
  rw [splitOnce_eq_some_iff]
  exact ⟨rfl, by decide⟩

/-- One group string against one translated key. -/
theorem groupMatches_groupSubject (key g name : String) (provider : GroupProvider)
    (h : groupSubject key = .ok (.group provider name)) :
    groupMatches g provider name = true ↔ KeyCovers (· ≠ "") key g := by
  unfold groupSubject at h
  cases hkey : splitOnce key ':' with
  | none =>
    simp only [hkey] at h
    split at h
    · simp at h
    simp only [Except.ok.injEq, SubjectMatcher.group.injEq] at h
    obtain ⟨rfl, rfl⟩ := h
    -- a bare key has no colon, so it is no `*:` key and only equality is left
    have hcovers : KeyCovers (· ≠ "") key g ↔ key = g := by
      refine or_iff_left ?_
      intro hex
      obtain ⟨p, n, -, -, rfl⟩ := hex
      simp [splitOnce_star] at hkey
    rw [hcovers]
    cases hg : splitOnce g ':' with
    | none => simpa [groupMatches, hg] using eq_comm
    | some parts =>
      have hne : key ≠ g := by
        intro heq
        subst heq
        simp [hkey] at hg
      simp [groupMatches, hg, hne]
  | some parts =>
    obtain ⟨p, n⟩ := parts
    simp only [hkey] at h
    split at h
    · simp at h
    simp only [Except.ok.injEq, SubjectMatcher.group.injEq] at h
    obtain ⟨hprovider, rfl⟩ := h
    by_cases hp : p = "*"
    · subst hp
      rw [if_pos rfl] at hprovider
      subst hprovider
      constructor
      · intro hmatch
        cases hg : splitOnce g ':' with
        | none => simp [groupMatches, hg] at hmatch
        | some gparts =>
          obtain ⟨q, m⟩ := gparts
          simp only [groupMatches, hg, Bool.and_eq_true, beq_iff_eq, Bool.not_eq_true',
            beq_eq_false_iff_ne] at hmatch
          obtain ⟨rfl, hq⟩ := hmatch
          refine Or.inr ⟨q, m, hg, hq, ?_⟩
          exact splitOnce_injective hkey (splitOnce_star m)
      · intro hcase
        rcases hcase with rfl | ⟨q, m, hg, hq, rfl⟩
        · simp [groupMatches, hkey]
        · obtain rfl : m = n := by simpa [splitOnce_star] using hkey
          simp [groupMatches, hg, hq]
    · rw [if_neg hp] at hprovider
      subst hprovider
      constructor
      · intro hmatch
        cases hg : splitOnce g ':' with
        | none => simp [groupMatches, hg] at hmatch
        | some gparts =>
          obtain ⟨q, m⟩ := gparts
          simp only [groupMatches, hg, Bool.and_eq_true, beq_iff_eq] at hmatch
          obtain ⟨rfl, rfl⟩ := hmatch
          exact Or.inl (splitOnce_injective hkey hg)
      · intro hcase
        rcases hcase with rfl | ⟨q, m, -, -, rfl⟩
        · simp [groupMatches, hkey]
        · rw [splitOnce_star, Option.some.injEq, Prod.mk.injEq] at hkey
          exact absurd hkey.1.symm hp

theorem groupSubject_isGroup (key : String) (s : SubjectMatcher)
    (h : groupSubject key = .ok s) : ∃ provider name, s = .group provider name := by
  unfold groupSubject at h
  cases hkey : splitOnce key ':' with
  | none =>
    simp only [hkey] at h
    split at h
    · simp at h
    · exact ⟨_, _, (Except.ok.inj h).symm⟩
  | some parts =>
    simp only [hkey] at h
    split at h
    · simp at h
    · exact ⟨_, _, (Except.ok.inj h).symm⟩

/-- A translated key names a caller exactly when it covers one of the groups
through a provider that is not empty. -/
theorem matches_groupSubject (key : String) (s : SubjectMatcher)
    (h : groupSubject key = .ok s) (subject : Subject) :
    s.matchesSubject subject = true ↔
      ∃ g ∈ subject.caller.groups, KeyCovers (· ≠ "") key g := by
  obtain ⟨provider, name, rfl⟩ := groupSubject_isGroup key s h
  simp only [SubjectMatcher.matchesSubject, List.any_eq_true,
    groupMatches_groupSubject key _ name provider h]

/-- The verbs whose lists a translated verb is read from. -/
def readFrom : Action → List Action
  | .releasesList => [.releasesRead, .sourceRead, .releasesList]
  | a => [a]

theorem mem_withList_iff_readFrom (actions : List Action) (a : Action) :
    a ∈ withList actions ↔ ∃ v ∈ readFrom a, v ∈ actions := by
  rw [mem_withList]
  by_cases ha : a = .releasesList
  · subst ha
    simp [readFrom, or_comm, or_left_comm]
  · have hread : readFrom a = [a] := by
      cases a <;> first | rfl | exact absurd rfl ha
    simp [hread, ha]

/-- The verbs the translation writes out itself, for no config ever named them. -/
def writtenOut : List Action :=
  writeVerbs ++ adminVerbs ++ [.quarantineRead, .findingsRead, .flagsRead] ++ controlVerbs

/-- What the translated node gives, for a verb that is not written out. -/
theorem gives_translateRbac (rbac : RbacSnapshot) (writeMode : WriteMode) (map : GrantMap)
    (h : translateRbac rbac writeMode = .ok map) (subject : Subject) (a : Action)
    (ha : a ∉ writtenOut) :
    map.Gives subject a ↔ ∃ v ∈ readFrom a, RolePermits rbac subject.caller.role v ∨
      GroupPermits (· ≠ "") rbac subject.caller.groups v := by
  have hwritten : a ∉ writeVerbs ∧ a ∉ adminVerbs ∧ a ∉ [.quarantineRead] ∧
      a ∉ [.quarantineRead, .findingsRead, .flagsRead] ∧ a ∉ controlVerbs := by
    refine ⟨?_, ?_, ?_, ?_, ?_⟩ <;> intro hmem <;> apply ha <;> simp_all [writtenOut]
  obtain ⟨hwrite, hadmin, hquarantine, hfindings, hcontrol⟩ := hwritten
  unfold translateRbac at h
  cases hgroups : grantGroups (((GrantMap.new.grant .anyone (withList rbac.anonymous)).grant
      (.role .user) (withList rbac.user)).grant (.role .admin) (withList rbac.admin))
      rbac.groups with
  | error e => simp [hgroups] at h
  | ok granted =>
    have hbase : map.Gives subject a ↔ granted.Gives subject a := by
      simp only [hgroups, Except.ok.injEq] at h
      subst h
      split <;> simp [hwrite, hadmin, hquarantine, hfindings, hcontrol]
    have hkeys : (∃ e ∈ rbac.groups, ∃ s, groupSubject e.1 = .ok s ∧
        s.matchesSubject subject = true ∧ a ∈ withList e.2) ↔
        ∃ v ∈ readFrom a, GroupPermits (· ≠ "") rbac subject.caller.groups v := by
      constructor
      · intro hex
        obtain ⟨e, he, s, hs, hmatch, hlist⟩ := hex
        obtain ⟨v, hv, hmem⟩ := (mem_withList_iff_readFrom e.2 a).mp hlist
        exact ⟨v, hv, e, he, (matches_groupSubject e.1 s hs subject).mp hmatch, hmem⟩
      · intro hex
        obtain ⟨v, hv, e, he, hcovers, hmem⟩ := hex
        obtain ⟨s, hs⟩ := grantGroups_subjects _ _ _ hgroups e he
        exact ⟨e, he, s, hs, (matches_groupSubject e.1 s hs subject).mpr hcovers,
          (mem_withList_iff_readFrom e.2 a).mpr ⟨v, hv, hmem⟩⟩
    have hpull : ∀ (p : Prop) (actions : List Action),
        (∃ v ∈ readFrom a, p ∧ v ∈ actions) ↔ p ∧ ∃ v ∈ readFrom a, v ∈ actions := by
      intro p actions
      simp only [and_left_comm, exists_and_left]
    rw [hbase, grantGroups_gives _ _ _ hgroups, hkeys]
    simp only [GrantMap.gives_grant, GrantMap.gives_new, false_or, mem_withList_iff_readFrom,
      SubjectMatcher.matchesSubject, Identity.hasRoleAtLeast, decide_eq_true_eq, true_and,
      RolePermits, and_or_left, exists_or, or_assoc, hpull]

/-- A `*:name` key lists the verb and the caller has the group `:name`. -/
def EmptyProviderPermits (rbac : RbacSnapshot) (groups : List String) (action : Action) : Prop :=
  ∃ e ∈ rbac.groups, (∃ name, ":" ++ name ∈ groups ∧ e.1 = "*:" ++ name) ∧ action ∈ e.2

theorem splitOnce_colon (name : String) : splitOnce (":" ++ name) ':' = some ("", name) := by
  rw [splitOnce_eq_some_iff]
  exact ⟨rfl, by decide⟩

/-- The only keys the two readings differ on. -/
theorem groupPermits_any_iff (rbac : RbacSnapshot) (groups : List String) (action : Action) :
    GroupPermits (fun _ => True) rbac groups action ↔
      GroupPermits (· ≠ "") rbac groups action ∨ EmptyProviderPermits rbac groups action := by
  constructor
  · intro hex
    obtain ⟨e, he, ⟨g, hg, hkey | ⟨provider, name, hsplit, -, hkey⟩⟩, ha⟩ := hex
    · exact Or.inl ⟨e, he, ⟨g, hg, Or.inl hkey⟩, ha⟩
    · by_cases hempty : provider = ""
      · subst hempty
        have hgroup := splitOnce_injective hsplit (splitOnce_colon name)
        exact Or.inr ⟨e, he, ⟨name, hgroup ▸ hg, hkey⟩, ha⟩
      · exact Or.inl ⟨e, he, ⟨g, hg, Or.inr ⟨provider, name, hsplit, hempty, hkey⟩⟩, ha⟩
  · intro hcase
    rcases hcase with ⟨e, he, ⟨g, hg, hcovers⟩, ha⟩ | ⟨e, he, ⟨name, hg, hkey⟩, ha⟩
    · refine ⟨e, he, ⟨g, hg, hcovers.imp id ?_⟩, ha⟩
      intro hex
      obtain ⟨provider, name, hsplit, -, hkey⟩ := hex
      exact ⟨provider, name, hsplit, trivial, hkey⟩
    · exact ⟨e, he, ⟨_, hg, Or.inr ⟨"", name, splitOnce_colon name, trivial, hkey⟩⟩, ha⟩

/-- The translated node decides the verbs the rule knew as the rule did, and the
listing verb as any of the three. -/
def Preserved (rbac : RbacSnapshot) (map : GrantMap) (label : String) (identity : Identity) :
    Prop :=
  let new := resolve [Node.new .registryTier label (some map)] (.identity identity)
  let old := (RbacRule.ofSnapshot rbac).evaluate identity
  (∀ v ∈ [Action.releasesRead, .sourceRead], old v = .allow ↔ new.holds v = true) ∧
    (new.holds .releasesList = true ↔
      ∃ v ∈ [Action.releasesRead, .sourceRead, .releasesList], old v = .allow)

/-- The rule against the translated node, one translated verb at a time. -/
theorem rule_agrees_iff (rbac : RbacSnapshot) (writeMode : WriteMode) (map : GrantMap)
    (h : translateRbac rbac writeMode = .ok map) (label : String) (identity : Identity)
    (a : Action) (ha : a ∉ writtenOut) :
    ((∃ v ∈ readFrom a, (RbacRule.ofSnapshot rbac).evaluate identity v = .allow) ↔
      (resolve [Node.new .registryTier label (some map)] (.identity identity)).holds a = true) ↔
    ((∃ v ∈ readFrom a, EmptyProviderPermits rbac identity.groups v) →
      ∃ v ∈ readFrom a, RolePermits rbac identity.role v ∨
        GroupPermits (· ≠ "") rbac identity.groups v) := by
  have hnew : (resolve [Node.new .registryTier label (some map)] (.identity identity)).holds a
      = true ↔ ∃ v ∈ readFrom a, RolePermits rbac identity.role v ∨
        GroupPermits (· ≠ "") rbac identity.groups v := by
    rw [holds_resolve_singleton]
    refine Iff.trans ?_ (gives_translateRbac rbac writeMode map h (.identity identity) a ha)
    simp [Node.Gives, Node.new]
  have hold : (∃ v ∈ readFrom a, (RbacRule.ofSnapshot rbac).evaluate identity v = .allow) ↔
      (∃ v ∈ readFrom a, RolePermits rbac identity.role v ∨
        GroupPermits (· ≠ "") rbac identity.groups v) ∨
      ∃ v ∈ readFrom a, EmptyProviderPermits rbac identity.groups v := by
    simp only [evaluate_ofSnapshot, groupPermits_any_iff, ← or_assoc, and_or_left, exists_or]
  rw [hnew, hold, or_iff_left_iff_imp]

/-- Exactly when the migration keeps every decision of the rule: a verb reached
through a `*:` key and an empty provider must be reachable without it. -/
theorem preserved_iff (rbac : RbacSnapshot) (writeMode : WriteMode) (map : GrantMap)
    (h : translateRbac rbac writeMode = .ok map) (label : String) (identity : Identity) :
    Preserved rbac map label identity ↔
      ∀ a ∈ [Action.releasesRead, .sourceRead, .releasesList],
        (∃ v ∈ readFrom a, EmptyProviderPermits rbac identity.groups v) →
          ∃ v ∈ readFrom a, RolePermits rbac identity.role v ∨
            GroupPermits (· ≠ "") rbac identity.groups v := by
  have hagree := rule_agrees_iff rbac writeMode map h label identity
  have hread := hagree .releasesRead (by decide)
  have hsource := hagree .sourceRead (by decide)
  have hlist := hagree .releasesList (by decide)
  simp only [List.forall_mem_cons, List.not_mem_nil, false_imp_iff, implies_true, and_true]
  rw [← hread, ← hsource, ← hlist]
  simp only [Preserved, readFrom, List.mem_singleton, exists_eq_left, List.forall_mem_cons,
    forall_eq, and_assoc]
  apply and_congr_right
  intro _
  apply and_congr_right
  intro _
  exact iff_comm

/-- One `*:` key, so that a group of any provider may read. -/
def starSnapshot : RbacSnapshot where
  anonymous := []
  user := []
  admin := []
  groups := [("*:eng", [.releasesRead])]
  explore := ⟨false, false, false⟩
  groups_nodup := by decide

theorem preserved_for_provider_group :
    ∃ map, translateRbac starSnapshot .accepts = .ok map ∧
      Preserved starSnapshot map "registry:reg" ⟨some "u", .user, none, ["oidc1:eng"]⟩ := by
  refine ⟨_, rfl, (preserved_iff starSnapshot .accepts _ rfl _ _).mpr ?_⟩
  intro a _ hex
  obtain ⟨v, -, e, -, ⟨name, hname, -⟩, -⟩ := hex
  rw [List.mem_singleton] at hname
  have hsplit := splitOnce_colon name
  rw [hname, show splitOnce "oidc1:eng" ':' = some ("oidc1", "eng") by decide] at hsplit
  simp at hsplit

/-- The rule lets the group `:eng` through the key `*:eng`; the node does not. -/
theorem not_preserved_for_empty_provider :
    ∃ map, translateRbac starSnapshot .accepts = .ok map ∧
      ¬ Preserved starSnapshot map "registry:reg" ⟨some "u", .user, none, [":eng"]⟩ := by
  refine ⟨_, rfl, ?_⟩
  intro hex
  obtain ⟨hread, -⟩ := hex
  exact absurd ((hread .releasesRead (by decide)).mp (by decide)) (by decide)

end BatleHub.RbacRules
