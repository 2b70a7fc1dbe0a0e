import BatleHub.Grants
import BatleHub.Lib.LastReset

/-!
Resolution over a path of nodes, outermost first: the union of what the nodes
after the last seal grant, plus the administrative floor when a seal cut the
path. `holds_resolve_iff` says this once and every later statement about a
resolved set goes through it. The configured half of a path is the registry
node followed by every namespace block that matches, in config order.
-/
namespace BatleHub.Resolution

open Grants Lib.LastReset Lib.Texts

/-- The verbs that survive a seal for a subject holding them at registry tier. -/
def administrativeFloor : List Action := [.ownersRead, .ownersWrite, .auditRead]

/-- Add every verb a node grants the subject. -/
def addNode (subject : Subject) (set : GrantSet) (node : Node) : GrantSet :=
  match node.grants with
  | none => set
  | some grants =>
    (grants.forSubject subject).foldl (fun set g => set.add g.1 node.label g.2) set

/-- Re-add the floor verbs the first node of the path grants the subject. -/
def addAdministrativeFloor (registry : Option Node) (subject : Subject) (set : GrantSet) :
    GrantSet :=
  match registry with
  | none => set
  | some registry =>
    match registry.grants with
    | none => set
    | some grants =>
      (grants.forSubject subject).foldl
        (fun set g => if g.1 ∈ administrativeFloor then set.add g.1 registry.label g.2 else set)
        set

/-- The permissions `subject` holds over the node at the end of `path`. -/
def resolve (path : List Node) (subject : Subject) : GrantSet :=
  let sealAt := rposition Node.isSealed path
  let start := sealAt.elim 0 (· + 1)
  let set := (path.drop start).foldl (addNode subject) GrantSet.empty
  if sealAt.isSome then addAdministrativeFloor path.head? subject set else set

theorem holds_foldl_add (label : String) (keep : Action → Prop) [DecidablePred keep]
    (gs : List (Action × SubjectMatcher)) (set : GrantSet) (a : Action) :
    ((gs.foldl (fun set g => if keep g.1 then set.add g.1 label g.2 else set) set).holds a
      = true) ↔ set.holds a = true ∨ (keep a ∧ ∃ m, (a, m) ∈ gs) := by
  induction gs generalizing set with
  | nil => simp
  | cons g rest ih =>
    obtain ⟨b, m⟩ := g
    rw [List.foldl_cons, ih]
    by_cases hb : keep b
    · rw [if_pos hb, GrantSet.holds_add, or_assoc]
      apply or_congr_right
      constructor
      · intro hcase
        rcases hcase with rfl | ⟨hk, m', hm'⟩
        · exact ⟨hb, m, List.mem_cons_self⟩
        · exact ⟨hk, m', List.mem_cons_of_mem _ hm'⟩
      · intro hex
        obtain ⟨hk, m', hm'⟩ := hex
        rcases List.mem_cons.mp hm' with heq | hm'
        · exact Or.inl (Prod.mk.inj heq).1
        · exact Or.inr ⟨hk, m', hm'⟩
    · rw [if_neg hb]
      apply or_congr_right
      apply and_congr_right
      intro hk
      constructor
      · intro hex
        obtain ⟨m', hm'⟩ := hex
        exact ⟨m', List.mem_cons_of_mem _ hm'⟩
      · intro hex
        obtain ⟨m', hm'⟩ := hex
        rcases List.mem_cons.mp hm' with heq | hm'
        · exact absurd ((Prod.mk.inj heq).1 ▸ hk) hb
        · exact ⟨m', hm'⟩

theorem holds_addNode (subject : Subject) (set : GrantSet) (node : Node) (a : Action) :
    (addNode subject set node).holds a = true ↔ set.holds a = true ∨ node.Gives subject a := by
  unfold addNode Node.Gives
  cases h : node.grants with
  | none => simp
  | some grants =>
    have hfold := holds_foldl_add node.label (fun _ => True) (grants.forSubject subject) set a
    simp only [if_true, true_and] at hfold
    simp [hfold, grants.gives_iff_mem_forSubject]

theorem holds_foldl_addNode (subject : Subject) (nodes : List Node) (set : GrantSet)
    (a : Action) :
    (nodes.foldl (addNode subject) set).holds a = true ↔
      set.holds a = true ∨ ∃ n ∈ nodes, n.Gives subject a := by
  induction nodes generalizing set with
  | nil => simp
  | cons n rest ih =>
    rw [List.foldl_cons, ih, holds_addNode, or_assoc, List.exists_mem_cons_iff]

theorem holds_addAdministrativeFloor (first : Option Node) (subject : Subject) (set : GrantSet)
    (a : Action) :
    (addAdministrativeFloor first subject set).holds a = true ↔
      set.holds a = true ∨
        (a ∈ administrativeFloor ∧ ∃ n, first = some n ∧ n.Gives subject a) := by
  unfold addAdministrativeFloor Node.Gives
  cases first with
  | none => simp
  | some n =>
    cases h : n.grants with
    | none => simp [h]
    | some grants =>
      have hfold := holds_foldl_add n.label (· ∈ administrativeFloor)
        (grants.forSubject subject) set a
      simp [hfold, h, grants.gives_iff_mem_forSubject]

/-- What resolution answers, in one line: the nodes after the last seal, and
under a seal the floor verbs of the path's first node. -/
theorem holds_resolve_iff (path : List Node) (subject : Subject) (a : Action) :
    (resolve path subject).holds a = true ↔
      (∃ n ∈ path.rtakeWhile (fun n => !n.isSealed), n.Gives subject a) ∨
        ((∃ n ∈ path, n.isSealed = true) ∧ a ∈ administrativeFloor ∧
          ∃ n, path.head? = some n ∧ n.Gives subject a) := by
  have hopen : ((path.drop ((rposition Node.isSealed path).elim 0 (· + 1))).foldl
      (addNode subject) GrantSet.empty).holds a = true ↔
      ∃ n ∈ path.rtakeWhile (fun n => !n.isSealed), n.Gives subject a := by
    rw [holds_foldl_addNode, drop_after_rposition]
    simp [GrantSet.holds, GrantSet.empty]
  rw [← rposition_isSome_iff]
  by_cases hseal : (rposition Node.isSealed path).isSome = true
  · simp only [resolve, hseal, if_true, holds_addAdministrativeFloor, hopen, true_and]
  · simp only [resolve, hseal, hopen, Bool.false_eq_true, if_false, false_and, or_false]

/-- Nodes appended below a path only ever add, provided none of them is a seal. -/
theorem holds_resolve_append (path below : List Node)
    (hbelow : ∀ n ∈ below, n.isSealed = false) (subject : Subject) (a : Action) :
    (resolve (path ++ below) subject).holds a = true ↔
      (resolve path subject).holds a = true ∨ ∃ n ∈ below, n.Gives subject a := by
  have hseal : (∃ n ∈ path ++ below, n.isSealed = true) ↔ ∃ n ∈ path, n.isSealed = true := by
    constructor
    · intro hex
      obtain ⟨n, hn, hsealed⟩ := hex
      rcases List.mem_append.mp hn with hn | hn
      · exact ⟨n, hn, hsealed⟩
      · rw [hbelow n hn] at hsealed
        exact absurd hsealed Bool.false_ne_true
    · intro hex
      obtain ⟨n, hn, hsealed⟩ := hex
      exact ⟨n, List.mem_append_left _ hn, hsealed⟩
  have hhead : (∃ n ∈ path, n.isSealed = true) → (path ++ below).head? = path.head? := by
    intro hex
    obtain ⟨n, hn, -⟩ := hex
    exact List.head?_append_of_ne_nil _ (List.ne_nil_of_mem hn)
  rw [holds_resolve_iff, holds_resolve_iff, hseal,
    rtakeWhile_append_of_forall _ _ _ (fun n hn => by simp [hbelow n hn])]
  simp only [List.mem_append, or_and_right, exists_or]
  rw [or_right_comm]
  apply or_congr_left
  apply or_congr_right
  apply and_congr_right
  intro h
  rw [hhead h]

theorem holds_resolve_singleton (n : Node) (subject : Subject) (a : Action) :
    (resolve [n] subject).holds a = true ↔ n.Gives subject a := by
  rw [holds_resolve_iff]
  by_cases h : n.isSealed = true
  · have hnot := n.not_gives_of_isSealed h subject a
    simp [List.rtakeWhile, h, hnot]
  · simp [List.rtakeWhile, h]

/-- A registry's configured hierarchy: its own node, and its namespaces in the
order the config writes them. -/
structure RegistryGrants where
  kind : RegistryKind
  registry : Node
  namespaces : List (String × Node)
  deriving DecidableEq, Repr

/-- The character that separates a namespace from what is under it. -/
def namespaceSeparator : RegistryKind → Char
  | .openvsx | .vscodeMarketplace | .nuget => '.'
  | .maven => ':'
  | .sdkman => '/'
  | _ => '/'

/-- Whether `package` lies under `lead`: equality counts, and anything deeper is
separated by the ecosystem's own character. -/
def namespaceMatches (kind : RegistryKind) (lead package : String) : Bool :=
  if lead = "" then false
  else if package = lead then true
  else
    match stripPrefix package lead with
    | none => false
    | some rest => rest.toList.head? == some (namespaceSeparator kind)

namespace RegistryGrants

/-- The namespace nodes that match `package`, in config order. -/
def matching (g : RegistryGrants) (package : String) : List Node :=
  (g.namespaces.filter fun ns => namespaceMatches g.kind ns.1 package).map Prod.snd

/-- The nodes on the path to `package`: the registry, then every matching
namespace. -/
def pathFor (g : RegistryGrants) (package : String) : List Node :=
  g.namespaces.foldl
    (fun path ns => if namespaceMatches g.kind ns.1 package then path ++ [ns.2] else path)
    [g.registry]

theorem pathFor_eq (g : RegistryGrants) (package : String) :
    g.pathFor package = g.registry :: g.matching package := by
  have aux : ∀ (blocks : List (String × Node)) (path : List Node),
      blocks.foldl (fun path ns =>
        if namespaceMatches g.kind ns.1 package then path ++ [ns.2] else path) path =
      path ++ (blocks.filter fun ns => namespaceMatches g.kind ns.1 package).map Prod.snd := by
    intro blocks
    induction blocks with
    | nil => simp
    | cons ns rest ih =>
      intro path
      rw [List.foldl_cons, ih]
      by_cases h : namespaceMatches g.kind ns.1 package <;> simp [h]
  exact aux g.namespaces [g.registry]

end RegistryGrants

/-- What an optional node above the registry adds when nothing below is sealed:
a sealed registry node hides it, and a sealed node gives nothing itself. -/
theorem open_top_gives_iff (top : Option Node) (registry : Node) (subject : Subject)
    (a : Action) :
    (∃ n ∈ (top.toList ++ [registry]).rtakeWhile (fun n => !n.isSealed), n.Gives subject a) ↔
      registry.Gives subject a ∨
        (registry.isSealed = false ∧ ∃ n, top = some n ∧ n.Gives subject a) := by
  rw [List.rtakeWhile_concat]
  by_cases hregistry : registry.isSealed = true
  · have hnot := registry.not_gives_of_isSealed hregistry subject a
    simp [hregistry, hnot]
  · rw [if_pos (by simpa using hregistry)]
    cases top with
    | none => simp
    | some t =>
      by_cases ht : t.isSealed = true
      · have hnot := t.not_gives_of_isSealed ht subject a
        simp [List.rtakeWhile, ht, hnot]
      · simp [List.rtakeWhile, ht, hregistry, or_comm]

/-- Resolution over a configured path: an instance node if there is one, the
registry, and the matching namespaces. A seal among the namespaces leaves what
is after the last one; without it the registry and the instance speak too. -/
theorem holds_configured_iff (top : Option Node) (g : RegistryGrants) (package : String)
    (subject : Subject) (a : Action) :
    (resolve (top.toList ++ g.pathFor package) subject).holds a = true ↔
      (∃ n ∈ (g.matching package).rtakeWhile (fun n => !n.isSealed), n.Gives subject a) ∨
        ((∀ n ∈ g.matching package, n.isSealed = false) ∧ (g.registry.Gives subject a ∨
          (g.registry.isSealed = false ∧ ∃ n, top = some n ∧ n.Gives subject a))) ∨
        ((∃ n ∈ top.toList ++ g.pathFor package, n.isSealed = true) ∧
          a ∈ administrativeFloor ∧ (top.getD g.registry).Gives subject a) := by
  have hhead : (top.toList ++ g.pathFor package).head? = some (top.getD g.registry) := by
    cases top <;> simp [g.pathFor_eq]
  rw [holds_resolve_iff, hhead, ← or_assoc]
  refine or_congr ?_ (by simp)
  rw [g.pathFor_eq]
  by_cases hseal : ∃ n ∈ g.matching package, n.isSealed = true
  · have hcut : ∃ n ∈ g.matching package, (!n.isSealed) = false := by simpa using hseal
    have hnone : ¬ ∀ n ∈ g.matching package, n.isSealed = false := by simpa using hseal
    rw [List.append_cons, rtakeWhile_append_of_exists _ _ _ hcut]
    simp [hnone]
  · have hopen : ∀ n ∈ g.matching package, n.isSealed = false := by simpa using hseal
    have hkeep : ∀ n ∈ g.matching package, (!n.isSealed) = true := by simpa using hopen
    have hbelow : (g.matching package).rtakeWhile (fun n => !n.isSealed) =
        g.matching package := by
      simpa using rtakeWhile_append_of_forall (fun n : Node => !n.isSealed) [] _ hkeep
    have htop : (∃ n ∈ (top.toList ++ [g.registry]).rtakeWhile (fun n => !n.isSealed),
        n.Gives subject a) ↔ g.registry.Gives subject a ∨
          (g.registry.isSealed = false ∧ ∃ n, top = some n ∧ n.Gives subject a) :=
      open_top_gives_iff top g.registry subject a
    rw [List.append_cons, rtakeWhile_append_of_forall _ _ _ hkeep, hbelow]
    constructor
    · intro hex
      obtain ⟨n, hn, hgives⟩ := hex
      rcases List.mem_append.mp hn with hn | hn
      · exact Or.inr ⟨hopen, htop.mp ⟨n, hn, hgives⟩⟩
      · exact Or.inl ⟨n, hn, hgives⟩
    · intro hcase
      rcases hcase with ⟨n, hn, hgives⟩ | ⟨-, hgives⟩
      · exact ⟨n, List.mem_append_right _ hn, hgives⟩
      · obtain ⟨n, hn, hgives⟩ := htop.mpr hgives
        exact ⟨n, List.mem_append_left _ hn, hgives⟩

end BatleHub.Resolution
