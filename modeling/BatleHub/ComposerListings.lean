import BatleHub.Lib.JsonBytes
import BatleHub.Lib.SortedMaps
import Mathlib.Data.String.Basic

/-!
Composer's listings (`services/blocking/composer.rs`). In a minified list an entry says only
what differs from the entry before it, so that no version can leave the list without a look
at those behind it: the list is expanded, filtered and minified again.
-/
namespace BatleHub.ComposerListings

open Lib Lib.JsonBytes Lib.SortedMaps

section Values
variable {N : Type}

/-- A `Map`, whose entries are in the order of their keys. -/
abbrev Members (N : Type) := List (String × JsonTree N)

mutual
/-- The derived equality of values. -/
def same [DecidableEq N] : JsonTree N → JsonTree N → Bool
  | .null, .null => true
  | .bool a, .bool b => decide (a = b)
  | .number m, .number n => decide (m = n)
  | .string s, .string t => decide (s = t)
  | .array xs, .array ys => sameItems xs ys
  | .object xs, .object ys => sameMembers xs ys
  | _, _ => false

def sameItems [DecidableEq N] : List (JsonTree N) → List (JsonTree N) → Bool
  | [], [] => true
  | x :: xs, y :: ys => same x y && sameItems xs ys
  | _, _ => false

def sameMembers [DecidableEq N] : Members N → Members N → Bool
  | [], [] => true
  | (k, x) :: xs, (l, y) :: ys => decide (k = l) && same x y && sameMembers xs ys
  | _, _ => false
end

mutual
theorem same_iff [DecidableEq N] (a b : JsonTree N) : same a b = true ↔ a = b := by
  cases a with
  | array xs => cases b <;> simp [same, sameItems_iff xs]
  | object xs => cases b <;> simp [same, sameMembers_iff xs]
  | _ => cases b <;> simp [same]

theorem sameItems_iff [DecidableEq N] (xs ys : List (JsonTree N)) :
    sameItems xs ys = true ↔ xs = ys := by
  cases xs with
  | nil => cases ys <;> simp [sameItems]
  | cons x xs => cases ys <;> simp [sameItems, same_iff x, sameItems_iff xs]

theorem sameMembers_iff [DecidableEq N] (xs ys : Members N) :
    sameMembers xs ys = true ↔ xs = ys := by
  cases xs with
  | nil => cases ys <;> simp [sameMembers]
  | cons member xs =>
    cases ys with
    | nil => simp [sameMembers]
    | cons member' ys =>
      simp [sameMembers, same_iff member.2, sameMembers_iff xs, Prod.ext_iff]
end

instance [DecidableEq N] : DecidableEq (JsonTree N) :=
  fun a b => decidable_of_iff _ (same_iff a b)

def isNull : JsonTree N → Bool
  | .null => true
  | _ => false

/-- `Value::get`. -/
def get (t : JsonTree N) (key : String) : Option (JsonTree N) :=
  match t with
  | .object members => members.lookup key
  | _ => none

def textField (t : JsonTree N) (key : String) : Option String :=
  match get t key with
  | some (.string s) => some s
  | _ => none

end Values

section Expanding
variable {N : Type}

/-- The members of an entry, from those in force before it; `null` takes one away. -/
def applyDelta (current delta : Members N) : Members N :=
  delta.foldl
    (fun m member => if isNull member.2 then erase member.1 m else insert member.1 member.2 m)
    current

def expandFrom (current : Members N) : List (JsonTree N) → List (JsonTree N)
  | [] => []
  | .object members :: rest =>
    .object (applyDelta current members) :: expandFrom (applyDelta current members) rest
  | entry :: rest => entry :: expandFrom current rest

/-- Every entry with all its members. -/
def expand (list : List (JsonTree N)) : List (JsonTree N) := expandFrom [] list

/-- An entry with its members in order. -/
def IsMap : JsonTree N → Prop
  | .object members => Sorted members
  | _ => True

instance : (entry : JsonTree N) → Decidable (IsMap entry)
  | .object members => inferInstanceAs (Decidable (Sorted members))
  | .null | .bool _ | .number _ | .string _ | .array _ => isTrue trivial

/-- An entry in full, which has no `null` to take away what stands in another one. -/
def IsFull : JsonTree N → Prop
  | .object members => Sorted members ∧ ∀ member ∈ members, isNull member.2 = false
  | _ => True

instance : (entry : JsonTree N) → Decidable (IsFull entry)
  | .object members =>
    inferInstanceAs (Decidable (Sorted members ∧ ∀ member ∈ members, isNull member.2 = false))
  | .null | .bool _ | .number _ | .string _ | .array _ => isTrue trivial

theorem isNull_iff (t : JsonTree N) : isNull t = true ↔ t = .null := by
  cases t <;> simp [isNull]

theorem lookup_applyDelta {delta : Members N} (hdelta : Sorted delta) (current : Members N)
    (k : String) :
    (applyDelta current delta).lookup k =
      match delta.lookup k with
      | some v => if isNull v then none else some v
      | none => current.lookup k := by
  induction delta generalizing current with
  | nil => rfl
  | cons member delta ih =>
    have hstep : applyDelta current (member :: delta) =
        applyDelta (if isNull member.2 then erase member.1 current
          else insert member.1 member.2 current) delta := rfl
    rw [hstep, ih hdelta.tail, lookup_entry]
    by_cases hk : k = member.1
    · subst hk
      rw [hdelta.lookup_head, if_pos rfl]
      dsimp only
      split
      · rw [lookup_erase, if_pos rfl]
      · rw [lookup_insert, if_pos rfl]
    · have hrest : (if isNull member.2 then erase member.1 current
          else insert member.1 member.2 current).lookup k = current.lookup k := by
        split
        · rw [lookup_erase, if_neg hk]
        · rw [lookup_insert, if_neg hk]
      rw [if_neg hk, hrest]

/-- Whatever the delta, the members in force stay a map without `null`. -/
theorem isFull_applyDelta {current : Members N} (h : IsFull (.object current)) (delta : Members N) :
    IsFull (.object (applyDelta current delta)) := by
  induction delta generalizing current with
  | nil => exact h
  | cons member delta ih =>
    obtain ⟨hsorted, hfull⟩ := h
    have hstep : applyDelta current (member :: delta) =
        applyDelta (if isNull member.2 then erase member.1 current
          else insert member.1 member.2 current) delta := rfl
    rw [hstep]
    split
    · exact ih ⟨hsorted.erase _, fun m hm => hfull m (List.mem_of_mem_filter hm)⟩
    · rename_i hnull
      refine ih ⟨hsorted.insert _ _, fun m hm => ?_⟩
      rcases mem_insert hm with rfl | hm
      · simpa using hnull
      · exact hfull m hm

theorem isFull_expandFrom {current : Members N} (h : IsFull (.object current))
    (list : List (JsonTree N)) : ∀ entry ∈ expandFrom current list, IsFull entry := by
  induction list generalizing current with
  | nil => simp [expandFrom]
  | cons entry list ih =>
    cases entry with
    | object members =>
      have hnext := isFull_applyDelta h members
      exact List.forall_mem_cons.mpr ⟨hnext, ih hnext⟩
    | _ => exact List.forall_mem_cons.mpr ⟨trivial, ih h⟩

theorem isFull_nil : IsFull (.object ([] : Members N)) := ⟨List.Pairwise.nil, by simp⟩

theorem isFull_expand (list : List (JsonTree N)) : ∀ entry ∈ expand list, IsFull entry :=
  isFull_expandFrom isFull_nil list

end Expanding

section Minifying
variable {N : Type} [DecidableEq N]

/-- What differs from the entry before, and `null` for what has gone away. -/
def deltaOf (previous members : Members N) : Members N :=
  insertAll (fun member => decide (members.lookup member.1 = none)) (fun _ => .null) previous
    (insertAll (fun member => decide (previous.lookup member.1 ≠ some member.2)) Prod.snd members
      [])

def minifyFrom (previous : Members N) : List (JsonTree N) → List (JsonTree N)
  | [] => []
  | .object members :: rest => .object (deltaOf previous members) :: minifyFrom members rest
  | entry :: rest => entry :: minifyFrom previous rest

def minify (list : List (JsonTree N)) : List (JsonTree N) := minifyFrom [] list

end Minifying

section Stripping
variable {N : Type}

/-- The key of a version, by which Composer and npm compare it, is the version. -/
def normalize (version : String) : String := version

structure BlockedVersions where
  versions : List String

def BlockedVersions.contains (blocked : BlockedVersions) (version : String) : Bool :=
  decide (normalize version ∈ blocked.versions.map normalize)

variable (blocked : BlockedVersions)

/-- The version of an entry that is to go. -/
def blockedVersion (entry : JsonTree N) : Option String :=
  (textField entry "version").filter blocked.contains

def withoutBlocked (list : List (JsonTree N)) : List (JsonTree N) :=
  list.filter fun entry => (blockedVersion blocked entry).isNone

def isMinified (doc : JsonTree N) : Bool := decide (textField doc "minified" = some "composer/2.0")

theorem withoutBlocked_twice (list : List (JsonTree N)) :
    withoutBlocked blocked (withoutBlocked blocked list) = withoutBlocked blocked list := by
  rw [withoutBlocked, withoutBlocked, List.filter_filter]
  simp

theorem blockedVersion_withoutBlocked (list : List (JsonTree N)) :
    (withoutBlocked blocked list).filterMap (blockedVersion blocked) = [] := by
  rw [List.filterMap_eq_nil_iff]
  intro entry hentry
  exact Option.isNone_iff_eq_none.mp (List.mem_filter.mp hentry).2

variable [DecidableEq N]

/-- The listing of one package, and the versions that left it. -/
def stripEntries (minified : Bool) (entries : JsonTree N) : JsonTree N × List String :=
  match entries with
  | .array list =>
    let expanded := if minified then expand list else list
    let kept := withoutBlocked blocked expanded
    (.array (if minified then minify kept else kept), expanded.filterMap (blockedVersion blocked))
  | entries => (entries, [])

def stripP2 (doc : JsonTree N) : JsonTree N × List String :=
  match doc with
  | .object members =>
    match members.lookup "packages" with
    | some (.object packages) =>
      let stripped := packages.map fun package =>
        (package.1, stripEntries blocked (isMinified doc) package.2)
      (.object (modify "packages" (fun _ => .object (stripped.map fun s => (s.1, s.2.1))) members),
        stripped.flatMap fun s => s.2.2)
    | _ => (doc, [])
  | _ => (doc, [])

/-- What a listing says of the versions of a package. -/
def entriesOf (minified : Bool) (entries : JsonTree N) : Option (List (JsonTree N)) :=
  match entries with
  | .array list => some (if minified then expand list else list)
  | _ => none

/-- What a document says: the entries of each package, in full. -/
def listings (doc : JsonTree N) : List (String × Option (List (JsonTree N))) :=
  match get doc "packages" with
  | some (.object packages) =>
    packages.map fun package => (package.1, entriesOf (isMinified doc) package.2)
  | _ => []

end Stripping

section RoundTrip
variable {N : Type} [DecidableEq N]

theorem sorted_deltaOf (previous members : Members N) : Sorted (deltaOf previous members) := by
  have hempty : Sorted ([] : Members N) := List.Pairwise.nil
  exact (hempty.insertAll _ _ _).insertAll _ _ _

theorem lookup_deltaOf {previous members : Members N} (hprevious : Sorted previous)
    (hmembers : Sorted members) (k : String) :
    (deltaOf previous members).lookup k =
      match members.lookup k with
      | some v => if previous.lookup k = some v then none else some v
      | none => if previous.lookup k = none then none else some .null := by
  rw [deltaOf, lookup_insertAll _ _ hprevious, lookup_insertAll _ _ hmembers]
  cases hm : members.lookup k with
  | none => cases hp : previous.lookup k <;> simp [hm]
  | some v =>
    cases hp : previous.lookup k with
    | none => simp [hp]
    | some w => by_cases heq : w = v <;> simp [hm, hp, heq]

theorem applyDelta_deltaOf {previous members : Members N} (hprevious : IsFull (.object previous))
    (hmembers : IsFull (.object members)) :
    applyDelta previous (deltaOf previous members) = members := by
  have hall := isFull_applyDelta hprevious (deltaOf previous members)
  refine hall.1.ext hmembers.1 fun k => ?_
  rw [lookup_applyDelta (sorted_deltaOf _ _), lookup_deltaOf hprevious.1 hmembers.1]
  cases hm : members.lookup k with
  | none => cases hp : previous.lookup k <;> simp [isNull]
  | some v =>
    have hv := hmembers.2 _ (mem_of_lookup hm)
    by_cases heq : previous.lookup k = some v <;> simp [heq, hv]

theorem expandFrom_minifyFrom {previous : Members N} (hprevious : IsFull (.object previous))
    {list : List (JsonTree N)} (hlist : ∀ entry ∈ list, IsFull entry) :
    expandFrom previous (minifyFrom previous list) = list := by
  induction list generalizing previous with
  | nil => rfl
  | cons entry list ih =>
    obtain ⟨hentry, hrest⟩ := List.forall_mem_cons.mp hlist
    cases entry with
    | object members =>
      rw [minifyFrom, expandFrom, applyDelta_deltaOf hprevious hentry, ih hentry hrest]
    | _ => exact congrArg (List.cons _) (ih hprevious hrest)

theorem expand_minify {list : List (JsonTree N)} (hlist : ∀ entry ∈ list, IsFull entry) :
    expand (minify list) = list :=
  expandFrom_minifyFrom isFull_nil hlist

/-- One encoding of an entry says no more than another one. -/
inductive SaysNoMore : JsonTree N → JsonTree N → Prop where
  | object {members members' : Members N} (h : ∀ member ∈ members, member ∈ members') :
      SaysNoMore (.object members) (.object members')
  | other (entry : JsonTree N) : SaysNoMore entry entry

/-- What differs has to be said by every entry that leads from one to the other. -/
theorem mem_of_mem_deltaOf {previous delta : Members N} (hprevious : IsFull (.object previous))
    (hdelta : Sorted delta) :
    ∀ member ∈ deltaOf previous (applyDelta previous delta), member ∈ delta := by
  intro member hmember
  have hall := isFull_applyDelta hprevious delta
  have hlook := (sorted_deltaOf _ _).lookup_eq_some_iff.mpr hmember
  rw [lookup_deltaOf hprevious.1 hall.1, lookup_applyDelta hdelta] at hlook
  apply mem_of_lookup
  cases hd : delta.lookup member.1 with
  | none =>
    rw [hd] at hlook
    cases hp : previous.lookup member.1 <;> simp [hp] at hlook
  | some v =>
    rw [hd] at hlook
    cases hnull : isNull v with
    | true =>
      rw [(isNull_iff v).mp hnull] at hlook ⊢
      simp [isNull] at hlook
      rw [hlook.2]
    | false =>
      simp only [hnull, Bool.false_eq_true, if_false] at hlook
      split at hlook
      · cases hlook
      · exact hlook

theorem minifyFrom_expandFrom_says_no_more {current : Members N}
    (hcurrent : IsFull (.object current)) {encoding : List (JsonTree N)}
    (hencoding : ∀ entry ∈ encoding, IsMap entry) :
    List.Forall₂ SaysNoMore (minifyFrom current (expandFrom current encoding)) encoding := by
  induction encoding generalizing current with
  | nil => exact List.Forall₂.nil
  | cons entry encoding ih =>
    obtain ⟨hentry, hrest⟩ := List.forall_mem_cons.mp hencoding
    cases entry with
    | object delta =>
      have hnext := isFull_applyDelta hcurrent delta
      exact List.Forall₂.cons (.object (mem_of_mem_deltaOf hcurrent hentry)) (ih hnext hrest)
    | _ => exact List.Forall₂.cons (.other _) (ih hcurrent hrest)

end RoundTrip

section Main
variable {N : Type} [DecidableEq N]

/-- A listing in full is minified to what says it again, and no encoding that says it has an
entry with less in it. -/
theorem minify_is_smallest {list : List (JsonTree N)} (hlist : ∀ entry ∈ list, IsFull entry) :
    expand (minify list) = list ∧
      ∀ encoding, (∀ entry ∈ encoding, IsMap entry) → expand encoding = list →
        List.Forall₂ SaysNoMore (minify list) encoding := by
  refine ⟨expand_minify hlist, fun encoding hencoding hexpand => ?_⟩
  rw [← hexpand]
  exact minifyFrom_expandFrom_says_no_more isFull_nil hencoding

/-- A key that goes away is taken back in the next entry. -/
theorem abandoned_then_not :
    expand (minify [.object [("abandoned", .bool true), ("version", .string "2")],
        .object [("version", .string "3")]]) =
      ([.object [("abandoned", .bool true), ("version", .string "2")],
        .object [("version", .string "3")]] : List (JsonTree ℕ)) ∧
      List.Forall₂ SaysNoMore
        (minify [.object [("abandoned", .bool true), ("version", .string "2")],
          .object [("version", .string "3")]])
        ([.object [("abandoned", .bool true), ("version", .string "2")],
          .object [("abandoned", .null), ("version", .string "3")]] : List (JsonTree ℕ)) := by
  have hlist : ∀ entry ∈ ([.object [("abandoned", .bool true), ("version", .string "2")],
      .object [("version", .string "3")]] : List (JsonTree ℕ)), IsFull entry := by decide
  have hencoding : ∀ entry ∈ ([.object [("abandoned", .bool true), ("version", .string "2")],
      .object [("abandoned", .null), ("version", .string "3")]] : List (JsonTree ℕ)),
      IsMap entry := by decide
  obtain ⟨hagain, hsmallest⟩ := minify_is_smallest hlist
  exact ⟨hagain, hsmallest _ hencoding (by decide)⟩

variable (blocked : BlockedVersions)

/-- What is left of a minified list is written so that it says what it said. -/
theorem expand_minify_withoutBlocked (list : List (JsonTree N)) :
    expand (minify (withoutBlocked blocked (expand list))) =
      withoutBlocked blocked (expand list) :=
  expand_minify fun entry hentry => isFull_expand list entry (List.mem_of_mem_filter hentry)

theorem entriesOf_stripEntries (minified : Bool) (entries : JsonTree N) :
    entriesOf minified (stripEntries blocked minified entries).1 =
      (entriesOf minified entries).map (withoutBlocked blocked) := by
  cases entries with
  | array list =>
    cases minified with
    | true => exact congrArg some (expand_minify_withoutBlocked blocked list)
    | false => rfl
  | _ => rfl

theorem removed_stripEntries (minified : Bool) (entries : JsonTree N) :
    (stripEntries blocked minified entries).2 =
      ((entriesOf minified entries).getD []).filterMap (blockedVersion blocked) := by
  cases entries <;> rfl

theorem stripEntries_twice (minified : Bool) (entries : JsonTree N) :
    stripEntries blocked minified (stripEntries blocked minified entries).1 =
      ((stripEntries blocked minified entries).1, []) := by
  cases entries with
  | array list =>
    cases minified with
    | true =>
      unfold stripEntries
      simp only [if_true, expand_minify_withoutBlocked, withoutBlocked_twice,
        blockedVersion_withoutBlocked]
    | false =>
      unfold stripEntries
      simp only [Bool.false_eq_true, if_false, withoutBlocked_twice,
        blockedVersion_withoutBlocked]
  | _ => rfl

/-- The document without the blocked versions, where it lists packages. -/
theorem stripP2_object {members packages : Members N}
    (h : members.lookup "packages" = some (.object packages)) :
    stripP2 blocked (.object members) =
      (.object (modify "packages" (fun _ => .object (packages.map fun package =>
          (package.1, (stripEntries blocked (isMinified (.object members)) package.2).1))) members),
        packages.flatMap fun package =>
          (stripEntries blocked (isMinified (.object members)) package.2).2) := by
  unfold stripP2
  simp only [h, List.map_map, List.flatMap_map, Function.comp_def]

theorem stripEntries_other (minified : Bool) {entries : JsonTree N}
    (h : ∀ list, entries ≠ .array list) : (stripEntries blocked minified entries).1 = entries := by
  cases entries with
  | array list => exact absurd rfl (h list)
  | _ => rfl

theorem stripP2_other {doc : JsonTree N}
    (h : ∀ packages, get doc "packages" ≠ some (.object packages)) :
    stripP2 blocked doc = (doc, []) ∧ listings doc = [] := by
  unfold stripP2 listings
  cases doc with
  | object members =>
    dsimp only [get] at h ⊢
    split
    · rename_i packages hpackages
      exact absurd hpackages (h packages)
    · exact ⟨rfl, rfl⟩
  | _ => exact ⟨rfl, rfl⟩

/-- Taking blocked versions out of a document changes nothing of what it says of the others,
minified or not; it reports what went, leaves the rest of the document alone, also what is no
list or table where one should be, and finds nothing more the next time. -/
theorem strip_keeps_meaning (doc : JsonTree N) :
    listings (stripP2 blocked doc).1 =
        (listings doc).map (fun package => (package.1, package.2.map (withoutBlocked blocked))) ∧
      (stripP2 blocked doc).2 = (listings doc).flatMap (fun package =>
        (package.2.getD []).filterMap (blockedVersion blocked)) ∧
      (∀ key, key ≠ "packages" → get (stripP2 blocked doc).1 key = get doc key) ∧
      ((∀ packages, get doc "packages" ≠ some (.object packages)) → (stripP2 blocked doc).1 = doc) ∧
      (∀ packages, get doc "packages" = some (.object packages) →
        ∃ packages', get (stripP2 blocked doc).1 "packages" = some (.object packages') ∧
          List.Forall₂ (fun old new => new.1 = old.1 ∧
            ((∀ list, old.2 ≠ .array list) → new.2 = old.2)) packages packages') ∧
      stripP2 blocked (stripP2 blocked doc).1 = ((stripP2 blocked doc).1, []) := by
  by_cases hlists : ∃ packages, get doc "packages" = some (.object packages)
  · obtain ⟨packages, hpackages⟩ := hlists
    cases doc with
    | object members =>
      have hlook : members.lookup "packages" = some (.object packages) := hpackages
      have hlistings : listings (.object members) = packages.map fun package =>
          (package.1, entriesOf (isMinified (.object members)) package.2) := by
        unfold listings
        rw [hpackages]
      rw [hlistings, stripP2_object blocked hlook]
      generalize hminified : isMinified (.object members) = minified
      -- the packages of the new document, and its members but for them
      have hnew : ∀ v : JsonTree N,
          (modify "packages" (fun _ => v) members).lookup "packages" = some v := by
        intro v
        rw [lookup_modify, if_pos rfl, hlook]
        rfl
      have hrest : ∀ (v : JsonTree N) key, key ≠ "packages" →
          get (.object (modify "packages" (fun _ => v) members)) key =
            get (.object members) key := by
        intro v key hkey
        rw [get, lookup_modify, if_neg hkey]
        rfl
      have hsame : ∀ v : JsonTree N,
          isMinified (.object (modify "packages" (fun _ => v) members)) = minified := by
        intro v
        rw [← hminified]
        unfold isMinified textField
        rw [hrest v "minified" (by decide)]
      refine ⟨?_, ?_, hrest _, fun hnone => absurd hpackages (hnone packages), ?_, ?_⟩
      · unfold listings
        rw [get, hnew, hsame]
        simp only [List.map_map, Function.comp_def, entriesOf_stripEntries]
      · simp only [List.flatMap_map, removed_stripEntries]
      · intro packages' hpackages'
        obtain rfl : packages = packages' := by
          rw [hpackages] at hpackages'
          exact JsonTree.object.inj (Option.some.inj hpackages')
        refine ⟨_, hnew _, List.forall₂_map_right_iff.mpr (List.forall₂_same.mpr ?_)⟩
        exact fun package _ => ⟨rfl, stripEntries_other blocked minified⟩
      · rw [stripP2_object blocked (hnew _), hsame]
        simp only [List.map_map, Function.comp_def, stripEntries_twice, modify_modify,
          List.flatMap_map]
        simp
    | _ => cases hpackages
  · obtain ⟨hstrip, hlistings⟩ := stripP2_other blocked (not_exists.mp hlists)
    rw [hstrip, hlistings]
    exact ⟨rfl, rfl, fun _ _ => rfl, fun _ => rfl,
      fun packages hpackages => absurd ⟨packages, hpackages⟩ hlists, hstrip⟩

end Main

end BatleHub.ComposerListings
