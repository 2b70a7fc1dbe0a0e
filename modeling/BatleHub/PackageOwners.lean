import BatleHub.Lib.AssocMap

/-!
The owner rows of each package. The first publisher becomes an owner, a package without
owners is open to every publisher, and releasing a name takes all its rows away, by one
statement or by a loop over the rows listed first.
-/
namespace BatleHub.PackageOwners

open Lib.AssocMap

/-- A row of `package_owners`. The type is "user" or "group", the role "admin" or
"maintainer". -/
structure OwnerEntry where
  principalType : String
  principalId : String
  role : String
  grantedBy : Option String
  deriving DecidableEq, Repr

/-- The rows of each registry and package, oldest first. -/
abbrev Owners := Assoc (String × String) (List OwnerEntry)

def listOwners (registry package : String) (owners : Owners) : List OwnerEntry :=
  (owners.lookup (registry, package)).getD []

/-- The row is the one of this principal. -/
def OwnerEntry.names (e : OwnerEntry) (principalType principalId : String) : Bool :=
  decide (e.principalType = principalType) && decide (e.principalId = principalId)

def initializeOwner (registry package userId : String) (owners : Owners) : Owners :=
  let rows := listOwners registry package owners
  if rows.any fun e => e.names "user" userId then owners
  else owners.insert (registry, package) (rows ++ [⟨"user", userId, "admin", none⟩])

/-- A package without rows is open; else a row must name the user or one of the groups. -/
def canPublish (registry package : String) (userId : Option String) (groups : List String)
    (owners : Owners) : Bool :=
  let rows := listOwners registry package owners
  rows.isEmpty || (userId.any fun uid => rows.any fun e => e.names "user" uid) ||
    rows.any fun e => decide (e.principalType = "group") && groups.contains e.principalId

def removeOwner (registry package principalType principalId : String) (owners : Owners) :
    Owners :=
  modify (registry, package) (fun rows => rows.filter fun e => !e.names principalType principalId)
    owners

/-- The one statement of `remove_all_owners`; the default is a loop of `removeOwner`. -/
def removeAllOwners (registry package : String) (owners : Owners) : Owners :=
  owners.erase (registry, package)

/-- A row of the package names this user. -/
def OwnedBy (registry package userId : String) (owners : Owners) : Prop :=
  ∃ e ∈ listOwners registry package owners, e.names "user" userId = true

theorem OwnedBy.listOwners_ne_nil {registry package userId : String} {owners : Owners}
    (h : OwnedBy registry package userId owners) : listOwners registry package owners ≠ [] := by
  obtain ⟨e, he, -⟩ := h
  intro hnil
  rw [hnil] at he
  exact absurd he List.not_mem_nil

theorem ownedBy_initializeOwner (registry package userId : String) (owners : Owners) :
    OwnedBy registry package userId (initializeOwner registry package userId owners) := by
  unfold initializeOwner
  dsimp only
  split
  · rename_i hany
    obtain ⟨e, he, hnames⟩ := List.any_eq_true.mp hany
    exact ⟨e, he, hnames⟩
  · refine ⟨⟨"user", userId, "admin", none⟩, ?_, ?_⟩
    · unfold listOwners
      rw [lookup_insert_eq, if_pos rfl]
      simp
    · simp [OwnerEntry.names]

/-- Removing the row of another principal leaves the user's. -/
theorem OwnedBy.removeOwner {registry package userId : String} {owners : Owners}
    (h : OwnedBy registry package userId owners) {principalType principalId : String}
    (hother : ¬ (principalType = "user" ∧ principalId = userId)) :
    OwnedBy registry package userId
      (removeOwner registry package principalType principalId owners) := by
  obtain ⟨e, he, hnames⟩ := h
  refine ⟨e, ?_, hnames⟩
  unfold listOwners at he ⊢
  unfold PackageOwners.removeOwner
  rw [lookup_modify, if_pos rfl]
  cases hrows : owners.lookup (registry, package) with
  | none => simp [hrows] at he
  | some rows =>
    simp only [hrows, Option.getD_some] at he
    simp only [Option.map_some, Option.getD_some, List.mem_filter]
    refine ⟨he, ?_⟩
    simp only [OwnerEntry.names, Bool.and_eq_true, decide_eq_true_eq] at hnames
    simp only [OwnerEntry.names, hnames.1, hnames.2]
    by_cases htype : "user" = principalType
    · by_cases hid : userId = principalId
      · exact absurd ⟨htype.symm, hid.symm⟩ hother
      · simp [hid]
    · simp [htype]

end BatleHub.PackageOwners
