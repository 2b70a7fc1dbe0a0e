import BatleHub.Resolution

/-!
Where a namespace seal cuts. A path lists the matching namespaces in config
order, so a seal stops every block written before it, nested or not. The blocks
that still speak are read off the config list itself: a matching block with no
sealed matching block written after it.
-/
namespace BatleHub.NamespaceSeals

open Grants Resolution Lib.LastReset Lib.Texts

/-- A block of the hierarchy that reaches `package`. -/
def Reaches (g : RegistryGrants) (block : String × Node) (package : String) : Prop :=
  block ∈ g.namespaces ∧ namespaceMatches g.kind block.1 package = true

/-- Some matching block grants the verb and no sealed matching block is written
after it. -/
def OpenBlockGives (g : RegistryGrants) (package : String) (subject : Subject) (a : Action) :
    Prop :=
  ∃ before block after, g.namespaces = before ++ block :: after ∧
    namespaceMatches g.kind block.1 package = true ∧ block.2.Gives subject a ∧
    ∀ later ∈ after, namespaceMatches g.kind later.1 package = true → later.2.isSealed = false

theorem openBlockGives_iff (g : RegistryGrants) (package : String) (subject : Subject)
    (a : Action) :
    OpenBlockGives g package subject a ↔
      ∃ n ∈ (g.matching package).rtakeWhile (fun n => !n.isSealed), n.Gives subject a := by
  simp only [mem_rtakeWhile_iff]
  constructor
  · intro hex
    obtain ⟨before, block, after, hsplit, hmatch, hgives, hafter⟩ := hex
    refine ⟨block.2,
      ⟨(before.filter fun ns => namespaceMatches g.kind ns.1 package).map Prod.snd,
        (after.filter fun ns => namespaceMatches g.kind ns.1 package).map Prod.snd, ?_, ?_, ?_⟩,
      hgives⟩
    · simp [RegistryGrants.matching, hsplit, hmatch]
    · by_contra hsealed
      exact block.2.not_gives_of_isSealed (by simpa using hsealed) subject a hgives
    · intro n hn
      obtain ⟨later, hlater, rfl⟩ := List.mem_map.mp hn
      obtain ⟨hmem, hm⟩ := List.mem_filter.mp hlater
      simp [hafter later hmem hm]
  · intro hex
    obtain ⟨n, ⟨pre, post, hsplit, -, hpost⟩, hgives⟩ := hex
    -- pull the position in the filtered list back to the config list
    obtain ⟨kept, rest, hkept, -, hrest⟩ := List.map_eq_append_iff.mp hsplit
    obtain ⟨block, tail, rfl, rfl, htail⟩ := List.map_eq_cons_iff.mp hrest
    obtain ⟨front, back, hconfig, -, hback⟩ := List.filter_eq_append_iff.mp hkept
    obtain ⟨skipped, after, rfl, -, hmatch, hafter⟩ := List.filter_eq_cons_iff.mp hback
    refine ⟨front ++ skipped, block, after, by simp [hconfig], hmatch, hgives, ?_⟩
    intro later hlater hm
    have hin : later.2 ∈ post := by
      rw [← htail, ← hafter]
      exact List.mem_map.mpr ⟨later, List.mem_filter.mpr ⟨hlater, hm⟩, rfl⟩
    simpa using hpost later.2 hin

theorem namespaceMatches_iff (kind : RegistryKind) (lead package : String) :
    namespaceMatches kind lead package = true ↔ lead ≠ "" ∧ (package = lead ∨
      ∃ rest, package = lead ++ String.singleton (namespaceSeparator kind) ++ rest) := by
  unfold namespaceMatches
  split
  · rename_i hempty
    simp [hempty]
  · rename_i hne
    split
    · rename_i heq
      simp [hne, heq]
    · rename_i hdiff
      simp only [hne, hdiff, ne_eq, not_false_eq_true, true_and, false_or]
      cases hstrip : stripPrefix package lead with
      | none =>
        simp only [Bool.false_eq_true, false_iff]
        intro hex
        obtain ⟨rest, hrest⟩ := hex
        rw [String.append_assoc, ← stripPrefix_eq_some_iff, hstrip] at hrest
        simp at hrest
      | some tail =>
        rw [stripPrefix_eq_some_iff] at hstrip
        subst hstrip
        rw [beq_iff_eq]
        constructor
        · intro hhead
          obtain ⟨rest, hrest⟩ := List.head?_eq_some_iff.mp hhead
          refine ⟨String.ofList rest, String.toList_inj.mp ?_⟩
          simp [hrest]
        · intro hex
          obtain ⟨rest, hrest⟩ := hex
          have hlist := congrArg String.toList hrest
          simp only [String.toList_append, List.append_assoc] at hlist
          rw [List.append_cancel_left hlist]
          simp

/-- Every package under `inner` is under `outer`, and they are two prefixes. -/
def NestedUnder (kind : RegistryKind) (inner outer : String) : Prop :=
  inner ≠ outer ∧ ∀ package, namespaceMatches kind inner package = true →
    namespaceMatches kind outer package = true

theorem nestedUnder_of_separator (kind : RegistryKind) (outer rest : String)
    (h : outer ≠ "") :
    NestedUnder kind (outer ++ String.singleton (namespaceSeparator kind) ++ rest) outer := by
  constructor
  · intro heq
    have hlen := congrArg (fun s : String => s.toList.length) heq
    simp at hlen
  · intro package hmatch
    rw [namespaceMatches_iff] at hmatch ⊢
    refine ⟨h, Or.inr ?_⟩
    rcases hmatch.2 with rfl | ⟨deeper, rfl⟩
    · exact ⟨rest, rfl⟩
    · exact ⟨rest ++ String.singleton (namespaceSeparator kind) ++ deeper, by
        simp only [String.append_assoc]⟩

/-- A sealed block with a granting block nested under it, both reaching the
package, and nothing sealed under the inner one. -/
structure SealAbove (g : RegistryGrants) (package : String) (subject : Subject) (a : Action)
    (outer inner : String × Node) : Prop where
  outer_reaches : Reaches g outer package
  inner_reaches : Reaches g inner package
  nested : NestedUnder g.kind inner.1 outer.1
  outer_sealed : outer.2.isSealed = true
  inner_gives : inner.2.Gives subject a
  unsealed_under : ∀ block ∈ g.namespaces, NestedUnder g.kind block.1 inner.1 →
    block.2.isSealed = false

/-- Exactly when the inner block's verb is held: some granting block is written
after every seal that reaches the package, or the verb is in the floor and the
registry grants it. -/
theorem sealAbove_holds_iff (g : RegistryGrants) (package : String) (subject : Subject)
    (a : Action) (outer inner : String × Node) (h : SealAbove g package subject a outer inner) :
    (resolve (g.pathFor package) subject).holds a = true ↔
      OpenBlockGives g package subject a ∨
        (a ∈ administrativeFloor ∧ g.registry.Gives subject a) := by
  have hsealed : outer.2 ∈ g.matching package :=
    List.mem_map.mpr ⟨outer, List.mem_filter.mpr h.outer_reaches, rfl⟩
  have hnone : ¬ ∀ n ∈ g.matching package, n.isSealed = false := by
    intro hall
    have hopen := hall outer.2 hsealed
    rw [h.outer_sealed] at hopen
    exact Bool.noConfusion hopen
  have hsome : ∃ n ∈ g.pathFor package, n.isSealed = true := by
    refine ⟨outer.2, ?_, h.outer_sealed⟩
    rw [g.pathFor_eq]
    exact List.mem_cons_of_mem _ hsealed
  have hconfigured := holds_configured_iff none g package subject a
  rw [← openBlockGives_iff] at hconfigured
  simpa [hnone, hsome] using hconfigured

def alice : Subject := .identity ⟨some "alice", .user, none, []⟩

/-- `@acme` sealed and `@acme/billing` granting alice, in the order given. -/
def acmeHierarchy (blocks : List (String × Node)) : RegistryGrants where
  kind := .npm
  registry := Node.new .registryTier "registry:reg"
    (some (GrantMap.new.grant (.role .admin) [.ownersRead]))
  namespaces := blocks

def acmeBlock : String × Node :=
  ("@acme", Node.new .namespaceTier "namespace:@acme" (some GrantMap.new))

def billingBlock : String × Node :=
  ("@acme/billing", Node.new .namespaceTier "namespace:@acme/billing"
    (some (GrantMap.new.grant (.user "alice") [.releasesRead])))

theorem acmeHierarchy_sealAbove (blocks : List (String × Node))
    (hblocks : ∀ b, b ∈ blocks ↔ b = acmeBlock ∨ b = billingBlock) :
    SealAbove (acmeHierarchy blocks) "@acme/billing" alice .releasesRead acmeBlock
      billingBlock where
  outer_reaches := ⟨(hblocks _).mpr (Or.inl rfl), (by decide : namespaceMatches .npm _ _ = true)⟩
  inner_reaches := ⟨(hblocks _).mpr (Or.inr rfl), (by decide : namespaceMatches .npm _ _ = true)⟩
  nested := nestedUnder_of_separator .npm "@acme" "billing" (by decide)
  outer_sealed := by decide
  inner_gives := by decide
  unsealed_under := by
    intro block hblock hnested
    rcases (hblocks block).mp hblock with rfl | rfl
    · have hself : namespaceMatches .npm "@acme/billing" "@acme" = true :=
        hnested.2 "@acme" (by rfl)
      exact absurd hself (by decide)
    · decide

theorem sealAbove_holds_outer_first :
    SealAbove (acmeHierarchy [acmeBlock, billingBlock]) "@acme/billing" alice .releasesRead
        acmeBlock billingBlock ∧
      (resolve ((acmeHierarchy [acmeBlock, billingBlock]).pathFor "@acme/billing") alice).holds
        .releasesRead = true := by
  have h := acmeHierarchy_sealAbove [acmeBlock, billingBlock] (by simp)
  refine ⟨h, (sealAbove_holds_iff _ _ _ _ _ _ h).mpr (Or.inl ?_)⟩
  exact ⟨[acmeBlock], billingBlock, [], rfl, by decide, by decide, by simp⟩

/-- The same two blocks, the inner one written first: its grant is gone. -/
theorem sealAbove_loses_inner_first :
    SealAbove (acmeHierarchy [billingBlock, acmeBlock]) "@acme/billing" alice .releasesRead
        acmeBlock billingBlock ∧
      (resolve ((acmeHierarchy [billingBlock, acmeBlock]).pathFor "@acme/billing") alice).holds
        .releasesRead = false := by
  refine ⟨acmeHierarchy_sealAbove _ ?_, by decide⟩
  intro b
  simp [or_comm]

end BatleHub.NamespaceSeals
