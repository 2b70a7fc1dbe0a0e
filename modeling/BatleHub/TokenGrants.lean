import BatleHub.GrantChain

/-!
Personal access tokens (`entities/grant.rs`, `auth/tokens.rs`): the groups a token is minted
with, and what a token may be given that its owner is not. Being within an owner is an order
on identities; each form of a grant's subject, each node and each resolution respects it, so
a token is never allowed what its owner is refused.
-/
namespace BatleHub.TokenGrants

open Grants Resolution GrantChain

section Snapshots

/-- A PAT resolves to its user and a subset of their groups. -/
def patIsWithinOwner (pat owner : Identity) : Bool :=
  if pat.userId ≠ owner.userId then false
  else if !owner.hasRoleAtLeast pat.role then false
  else pat.groups.all fun g => owner.groups.contains g

/-- `replace(' ', "")`. -/
def normalise (g : String) : String := String.ofList (g.toList.filter (· ≠ ' '))

/-- The owner's string for a group that was asked for. -/
def heldGroup (owner : Identity) (want : String) : Option String :=
  owner.groups.find? fun held => normalise held = normalise want

/-- The loop over what was asked for: the snapshot so far, and what is missing. -/
def snapshotGroups (owner : Identity) :
    List String → List String → List String → List String × List String
  | [], snapshot, missing => (snapshot, missing)
  | want :: rest, snapshot, missing =>
    match heldGroup owner want with
    | some held =>
      if snapshot.contains held then snapshotGroups owner rest snapshot missing
      else snapshotGroups owner rest (snapshot ++ [held]) missing
    | none => snapshotGroups owner rest snapshot (missing ++ [want])

/-- The groups a token is minted with, or the ones its creator does not hold. -/
def snapshotPatGroups (requested : List String) (owner : Identity) :
    Except (List String) (List String) :=
  let (snapshot, missing) := snapshotGroups owner requested [] []
  if missing = [] then .ok snapshot else .error missing

end Snapshots

section Order

/-- `pat` is the same user with no higher role and no other group. -/
structure Within (pat owner : Identity) : Prop where
  user : pat.userId = owner.userId
  role : owner.hasRoleAtLeast pat.role = true
  groups : ∀ g ∈ pat.groups, g ∈ owner.groups

theorem patIsWithinOwner_iff (pat owner : Identity) :
    patIsWithinOwner pat owner = true ↔ Within pat owner := by
  unfold patIsWithinOwner
  by_cases huser : pat.userId = owner.userId
  · rw [if_neg (not_not_intro huser)]
    cases hrole : owner.hasRoleAtLeast pat.role with
    | false =>
      rw [if_pos (by simp)]
      refine iff_of_false Bool.false_ne_true fun h => ?_
      rw [h.role] at hrole
      cases hrole
    | true =>
      rw [if_neg (by simp), List.all_eq_true]
      simp only [List.contains_iff_mem]
      exact ⟨fun hgroups => ⟨huser, hrole, hgroups⟩, fun h => h.groups⟩
  · rw [if_pos huser]
    exact iff_of_false Bool.false_ne_true fun h => huser h.user

theorem hasRoleAtLeast_trans {pat owner : Identity} {r : Role}
    (h : owner.hasRoleAtLeast pat.role = true) (hr : pat.hasRoleAtLeast r = true) :
    owner.hasRoleAtLeast r = true := by
  have hle : pat.role.rank ≤ owner.role.rank := of_decide_eq_true h
  have hpat : r.rank ≤ pat.role.rank := of_decide_eq_true hr
  exact decide_eq_true (hpat.trans hle)

/-- What the loop adds to a snapshot the owner holds. -/
theorem snapshotGroups_spec {owner : Identity} (requested snapshot missing : List String)
    (hheld : ∀ g ∈ snapshot, g ∈ owner.groups) (hnodup : snapshot.Nodup) :
    (∀ g ∈ (snapshotGroups owner requested snapshot missing).1, g ∈ owner.groups) ∧
      (snapshotGroups owner requested snapshot missing).1.Nodup ∧
      (∀ g ∈ snapshot, g ∈ (snapshotGroups owner requested snapshot missing).1) ∧
      (snapshotGroups owner requested snapshot missing).2 =
        missing ++ requested.filter (fun want => (heldGroup owner want).isNone) ∧
      ∀ want ∈ requested, ∀ held, heldGroup owner want = some held →
        held ∈ (snapshotGroups owner requested snapshot missing).1 := by
  induction requested generalizing snapshot missing with
  | nil => exact ⟨hheld, hnodup, fun _ h => h, (List.append_nil _).symm, fun _ h => by simp at h⟩
  | cons want rest ih =>
    rw [snapshotGroups]
    cases hfound : heldGroup owner want with
    | none =>
      obtain ⟨h1, h2, h3, h4, h5⟩ := ih snapshot (missing ++ [want]) hheld hnodup
      refine ⟨h1, h2, h3, ?_, ?_⟩
      · rw [h4, List.filter_cons_of_pos (by simp [hfound]), List.append_assoc,
          List.singleton_append]
      · intro g hg held hgheld
        rcases List.mem_cons.mp hg with rfl | hg
        · rw [hfound] at hgheld
          cases hgheld
        · exact h5 g hg held hgheld
    | some found =>
      have hmissing : (want :: rest).filter (fun want => (heldGroup owner want).isNone) =
          rest.filter (fun want => (heldGroup owner want).isNone) :=
        List.filter_cons_of_neg (by simp [hfound])
      dsimp only
      by_cases hmem : found ∈ snapshot
      · rw [if_pos (List.contains_iff_mem.mpr hmem), hmissing]
        obtain ⟨h1, h2, h3, h4, h5⟩ := ih snapshot missing hheld hnodup
        refine ⟨h1, h2, h3, h4, fun g hg held hgheld => ?_⟩
        rcases List.mem_cons.mp hg with rfl | hg
        · obtain rfl := Option.some.inj (hfound.symm.trans hgheld)
          exact h3 found hmem
        · exact h5 g hg held hgheld
      · rw [if_neg (by rw [List.contains_iff_mem]; exact hmem), hmissing]
        have hfoundHeld : found ∈ owner.groups := List.mem_of_find?_eq_some hfound
        obtain ⟨h1, h2, h3, h4, h5⟩ := ih (snapshot ++ [found]) missing
          (fun g hg => (List.mem_append.mp hg).elim (hheld g) fun h =>
            List.mem_singleton.mp h ▸ hfoundHeld)
          (by simpa [List.nodup_append] using ⟨hnodup, fun g hg hsame => hmem (hsame ▸ hg)⟩)
        refine ⟨h1, h2, fun g hg => h3 g (List.mem_append_left _ hg), h4,
          fun g hg held hgheld => ?_⟩
        rcases List.mem_cons.mp hg with rfl | hg
        · obtain rfl := Option.some.inj (hfound.symm.trans hgheld)
          exact h3 found (List.mem_append_right _ (List.mem_singleton_self found))
        · exact h5 g hg held hgheld

/-- A minted token is within its owner. -/
theorem within_of_snapshot {requested : List String} {owner : Identity} {role : Role}
    {groups : List String} (hrole : owner.hasRoleAtLeast role = true)
    (h : snapshotPatGroups requested owner = .ok groups) (authProvider : Option String) :
    Within ⟨owner.userId, role, authProvider, groups⟩ owner := by
  have hheld : ∀ g ∈ (snapshotGroups owner requested [] []).1, g ∈ owner.groups :=
    (snapshotGroups_spec requested [] [] (fun _ hg => by simp at hg) List.nodup_nil).1
  unfold snapshotPatGroups at h
  dsimp only at h
  split at h
  · obtain rfl := Except.ok.inj h
    exact ⟨rfl, hrole, hheld⟩
  · cases h

theorem heldGroup_isSome_of_missing {owner : Identity} {requested : List String}
    (h : requested.filter (fun want => (heldGroup owner want).isNone) = []) {want : String}
    (hwant : want ∈ requested) : ∃ held, heldGroup owner want = some held := by
  have hnot := List.filter_eq_nil_iff.mp h want hwant
  cases hfound : heldGroup owner want with
  | none => exact absurd (by rw [hfound]; rfl) hnot
  | some held => exact ⟨held, rfl⟩

/-- A snapshot has each group once, and one for everything that was asked for. -/
theorem snapshotPatGroups_ok_spec {requested : List String} {owner : Identity}
    {groups : List String} (h : snapshotPatGroups requested owner = .ok groups) :
    groups.Nodup ∧ ∀ want ∈ requested, ∃ held ∈ groups, normalise held = normalise want := by
  obtain ⟨-, hnodup, -, hmissing, hfound⟩ :=
    @snapshotGroups_spec owner requested [] [] (fun _ hg => by simp at hg) List.nodup_nil
  rw [List.nil_append] at hmissing
  unfold snapshotPatGroups at h
  dsimp only at h
  split at h
  · rename_i hempty
    obtain rfl := Except.ok.inj h
    refine ⟨hnodup, fun want hwant => ?_⟩
    obtain ⟨held, hheld⟩ := heldGroup_isSome_of_missing (hmissing.symm.trans hempty) hwant
    refine ⟨held, hfound want hwant held hheld, ?_⟩
    have hsame := List.find?_some hheld
    exact of_decide_eq_true hsame
  · cases h

/-- What is refused is exactly what the owner does not hold, in the order it was asked for. -/
theorem snapshotPatGroups_eq_error_iff (requested : List String) (owner : Identity)
    (missing : List String) :
    snapshotPatGroups requested owner = .error missing ↔
      missing = requested.filter (fun want => (heldGroup owner want).isNone) ∧
        missing ≠ [] := by
  have hmissing : (snapshotGroups owner requested [] []).2 =
      [] ++ requested.filter (fun want => (heldGroup owner want).isNone) :=
    (snapshotGroups_spec requested [] [] (fun _ hg => by simp at hg) List.nodup_nil).2.2.2.1
  rw [List.nil_append] at hmissing
  unfold snapshotPatGroups
  dsimp only
  rw [hmissing]
  split
  · rename_i hempty
    refine iff_of_false nofun ?_
    rintro ⟨rfl, hne⟩
    exact hne hempty
  · rename_i hne
    rw [Except.error.injEq]
    constructor
    · rintro rfl
      exact ⟨rfl, hne⟩
    · rintro ⟨rfl, -⟩
      rfl

end Order

section Monotonicity
variable {pat owner : Identity}

/-- Every form of a subject that names the token names its owner. -/
theorem matchesSubject_mono (h : Within pat owner) (m : SubjectMatcher)
    (hpat : m.matchesSubject (.identity pat) = true) :
    m.matchesSubject (.identity owner) = true := by
  cases m with
  | anyone => rfl
  | role r => exact hasRoleAtLeast_trans h.role hpat
  | group provider name =>
    obtain ⟨g, hg, hmatch⟩ := List.any_eq_true.mp hpat
    exact List.any_eq_true.mpr ⟨g, h.groups g hg, hmatch⟩
  | user id =>
    have hid : (pat.userId == some id) = true := hpat
    rw [h.user] at hid
    exact hid
  | token name => cases hpat

theorem Gives_mono (h : Within pat owner) {n : Node} {a : Action}
    (hpat : n.Gives (.identity pat) a) : n.Gives (.identity owner) a := by
  obtain ⟨m, hm, e, he, hmatch, ha⟩ := hpat
  exact ⟨m, hm, e, he, matchesSubject_mono h e.1 hmatch, ha⟩

/-- A resolution holds a verb for the token only if it does for its owner. -/
theorem resolve_mono (h : Within pat owner) (path : List Node) (a : Action)
    (hpat : (resolve path (.identity pat)).holds a = true) :
    (resolve path (.identity owner)).holds a = true := by
  rw [holds_resolve_iff] at hpat ⊢
  rcases hpat with ⟨n, hn, hgives⟩ | ⟨hseal, hfloor, n, hn, hgives⟩
  · exact .inl ⟨n, hn, Gives_mono h hgives⟩
  · exact .inr ⟨hseal, hfloor, n, hn, Gives_mono h hgives⟩

/-- No token is let through where its owner is turned away. -/
theorem authorizeGrants_mono (h : Within pat owner) (hot : HotConfig) (today : NaiveDate)
    (packageId : PackageId) (a : Action)
    (hpat : authorizeGrants hot today packageId pat a = .ok ()) :
    authorizeGrants hot today packageId owner a = .ok () := by
  unfold authorizeGrants at hpat ⊢
  cases hgrants : hot.grants packageId.registry with
  | none => rfl
  | some grants =>
    simp only [hgrants] at hpat ⊢
    by_cases howner : (resolve (resolutionPath hot grants packageId.name)
        (.identity owner)).holds a = true
    · rw [if_pos howner]
    · have hconfigured : ¬ (resolve (resolutionPath hot grants packageId.name)
          (.identity pat)).holds a = true := fun hheld => howner (resolve_mono h _ a hheld)
      rw [if_neg howner]
      rw [if_neg hconfigured] at hpat
      cases hnodes : storedNodes hot packageId with
      | error e =>
        rw [hnodes] at hpat
        cases hpat
      | ok nodes =>
        simp only [hnodes] at hpat ⊢
        by_cases hwhole : (resolve (resolutionPath hot grants packageId.name ++ nodes)
            (.identity owner)).holds a = true
        · rw [if_pos hwhole]
        · have hstored : ¬ (resolve (resolutionPath hot grants packageId.name ++ nodes)
              (.identity pat)).holds a = true := fun hheld => hwhole (resolve_mono h _ a hheld)
          rw [if_neg hwhole]
          rw [if_neg hstored] at hpat
          split at hpat
          · rename_i hshadow
            rw [if_pos hshadow]
          · cases hpat

/-- A token never exceeds its owner: minting keeps it within, each asked-for group once and
none that the owner does not hold, and within resolves to no verb the owner does not hold,
nor is let through where the owner is turned away. -/
theorem token_never_exceeds_owner :
    (∀ (owner : Identity) (requested : List String) (role : Role)
        (authProvider : Option String) (groups : List String),
      owner.hasRoleAtLeast role = true → snapshotPatGroups requested owner = .ok groups →
      patIsWithinOwner ⟨owner.userId, role, authProvider, groups⟩ owner = true ∧
        groups.Nodup ∧ ∀ want ∈ requested, ∃ held ∈ groups, normalise held = normalise want) ∧
    (∀ (owner : Identity) (requested missing : List String),
      snapshotPatGroups requested owner = .error missing ↔
        missing = requested.filter (fun want => (heldGroup owner want).isNone) ∧
          missing ≠ []) ∧
    (∀ (pat owner : Identity) (path : List Node) (a : Action),
      patIsWithinOwner pat owner = true →
      (resolve path (.identity pat)).holds a = true →
      (resolve path (.identity owner)).holds a = true) ∧
    ∀ (pat owner : Identity) (hot : HotConfig) (today : NaiveDate) (packageId : PackageId)
        (a : Action),
      patIsWithinOwner pat owner = true →
      authorizeGrants hot today packageId pat a = .ok () →
      authorizeGrants hot today packageId owner a = .ok () := by
  refine ⟨?_, ?_, ?_, ?_⟩
  · intro owner requested role authProvider groups hrole hsnapshot
    rw [patIsWithinOwner_iff]
    exact ⟨within_of_snapshot hrole hsnapshot authProvider, snapshotPatGroups_ok_spec hsnapshot⟩
  · intro owner requested missing
    exact snapshotPatGroups_eq_error_iff requested owner missing
  · intro pat owner path a hwithin hpat
    rw [patIsWithinOwner_iff] at hwithin
    exact resolve_mono hwithin path a hpat
  · intro pat owner hot today packageId a hwithin hpat
    rw [patIsWithinOwner_iff] at hwithin
    exact authorizeGrants_mono hwithin hot today packageId a hpat

/-- A team lead's token for one of two groups, under a sealed namespace. -/
theorem sealed_path_token :
    patIsWithinOwner ⟨some "ann", .user, some "user-token", ["platform team"]⟩
        ⟨some "ann", .admin, some "oidc1", ["platform team", "oidc1:eng"]⟩ = true ∧
      (resolve [Node.new .registryTier "registry:npm" (some ⟨[(.user "ann", [.auditRead])]⟩),
          Node.new .namespaceTier "namespace:@acme" (some ⟨[]⟩)]
        (.identity ⟨some "ann", .admin, some "oidc1", ["platform team", "oidc1:eng"]⟩)).holds
          .auditRead = true :=
  ⟨(token_never_exceeds_owner.1
      ⟨some "ann", .admin, some "oidc1", ["platform team", "oidc1:eng"]⟩ ["platformteam"] .user
      (some "user-token") ["platform team"] (by decide) (by decide +kernel)).1,
    token_never_exceeds_owner.2.2.1 ⟨some "ann", .user, some "user-token", ["platform team"]⟩
      ⟨some "ann", .admin, some "oidc1", ["platform team", "oidc1:eng"]⟩ _ .auditRead
      (by decide +kernel) (by decide +kernel)⟩

end Monotonicity

end BatleHub.TokenGrants
