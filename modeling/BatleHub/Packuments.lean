import BatleHub.ComposerListings
import BatleHub.Lib.LastMax
import BatleHub.NewestFirst

/-!
The packument of npm (`services/blocking/npm.rs`). Blocked versions leave it with their times;
a tag on one of them goes too, but for `latest`, which moves to the best version that is left.
-/
namespace BatleHub.Packuments

open Lib Lib.JsonBytes Lib.SortedMaps Lib.LastMax
open ComposerListings (BlockedVersions Members IsMap get)
open NewestFirst (Semver Version compareVersions)

section Newest
variable {Pre Build : Type} (lib : Semver Pre Build) (preEmpty : Pre → Bool)

/-- The versions that the semver library reads, with or without a `v` before them. -/
def parsed (versions : List String) : List (Version Pre Build × String) :=
  versions.filterMap fun raw =>
    (lib.parse ((Texts.stripPrefix raw "v").getD raw)).map fun version => (version, raw)

def compareParsed (a b : Version Pre Build × String) : Ordering := compareVersions lib a.1 b.1

/-- The greatest stable version, or else the greatest one, or else the greatest text. -/
def bestLatest (versions : List String) : Option String :=
  match lastMax (compareParsed lib)
      ((parsed lib versions).filter fun entry => preEmpty entry.1.pre) with
  | some best => some best.2
  | none =>
    match lastMax (compareParsed lib) (parsed lib versions) with
    | some best => some best.2
    | none => lastMax compare versions

variable {lib preEmpty}

theorem mem_of_mem_parsed {versions : List String} {entry : Version Pre Build × String}
    (h : entry ∈ parsed lib versions) : entry.2 ∈ versions := by
  obtain ⟨raw, hraw, hread⟩ := List.mem_filterMap.mp h
  obtain ⟨version, -, rfl⟩ := Option.map_eq_some_iff.mp hread
  exact hraw

theorem parsed_filter (p : String → Bool) (versions : List String) :
    parsed lib (versions.filter p) = (parsed lib versions).filter fun entry => p entry.2 := by
  induction versions with
  | nil => rfl
  | cons raw versions ih =>
    cases hread : lib.parse ((Texts.stripPrefix raw "v").getD raw) with
    | none =>
      cases hp : p raw <;> simp [parsed, hp, hread] <;> exact ih
    | some version =>
      cases hp : p raw <;> simp [parsed, hp, hread] <;> exact ih

theorem mem_of_bestLatest {versions : List String} {best : String}
    (h : bestLatest lib preEmpty versions = some best) : best ∈ versions := by
  unfold bestLatest at h
  split at h
  · rename_i entry hentry
    obtain rfl := Option.some.inj h
    exact mem_of_mem_parsed (List.mem_of_mem_filter (mem_of_lastMax _ hentry))
  · split at h
    · rename_i entry hentry
      obtain rfl := Option.some.inj h
      exact mem_of_mem_parsed (mem_of_lastMax _ hentry)
    · exact mem_of_lastMax _ h

theorem bestLatest_eq_none_iff (versions : List String) :
    bestLatest lib preEmpty versions = none ↔ versions = [] := by
  constructor
  · intro h
    unfold bestLatest at h
    split at h
    · cases h
    · split at h
      · cases h
      · exact (lastMax_eq_none_iff _ versions).mp h
  · intro h
    rw [h]
    rfl

/-- Versions are in a total order where the parts of them are that are no numbers. -/
theorem transCmp_compareVersions (hpre : Std.TransCmp lib.comparePre)
    (hbuild : Std.TransCmp lib.compareBuild) : Std.TransCmp (compareVersions lib) := by
  have hpre' := transCmp_on lib.comparePre fun v : Version Pre Build => v.pre
  have hbuild' := transCmp_on lib.compareBuild fun v : Version Pre Build => v.build
  have hall : Std.TransCmp (compareLex (compareOn fun v : Version Pre Build => v.major)
      (compareLex (compareOn fun v => v.minor) (compareLex (compareOn fun v => v.patch)
        (compareLex (fun v w => lib.comparePre v.pre w.pre)
          fun v w => lib.compareBuild v.build w.build)))) := inferInstance
  exact hall

/-- The best version stays so when others leave. -/
theorem bestLatest_filter [Std.TransCmp (compareVersions lib)] {versions : List String}
    {best : String} (h : bestLatest lib preEmpty versions = some best) {p : String → Bool}
    (hp : p best = true) : bestLatest lib preEmpty (versions.filter p) = some best := by
  have htrans : Std.TransCmp (compareParsed lib) := transCmp_on (compareVersions lib) Prod.fst
  have hcomm : ((parsed lib versions).filter fun entry => p entry.2).filter
      (fun entry => preEmpty entry.1.pre) =
        ((parsed lib versions).filter fun entry => preEmpty entry.1.pre).filter
          fun entry => p entry.2 := by
    rw [List.filter_filter, List.filter_filter]
    exact List.filter_congr fun entry _ => Bool.and_comm _ _
  unfold bestLatest at h ⊢
  rw [parsed_filter, hcomm]
  cases hstable : lastMax (compareParsed lib)
      ((parsed lib versions).filter fun entry => preEmpty entry.1.pre) with
  | some entry =>
    rw [hstable] at h
    obtain rfl := Option.some.inj h
    rw [lastMax_filter _ hstable hp]
  | none =>
    rw [hstable] at h
    rw [(lastMax_eq_none_iff _ _).mp hstable]
    dsimp only at h ⊢
    cases hread : lastMax (compareParsed lib) (parsed lib versions) with
    | some entry =>
      rw [hread] at h
      obtain rfl := Option.some.inj h
      rw [lastMax_filter _ hread hp]
      rfl
    | none =>
      rw [hread] at h
      rw [(lastMax_eq_none_iff _ _).mp hread]
      exact lastMax_filter _ h hp

end Newest

section Stripping
variable {N Pre Build : Type} (lib : Semver Pre Build) (preEmpty : Pre → Bool)

/-- `Value::as_object_mut` and a change. -/
def onObject (f : Members N → Members N) : JsonTree N → JsonTree N
  | .object members => .object (f members)
  | t => t

def eraseAll (keys : List String) (members : Members N) : Members N :=
  keys.foldl (fun members key => erase key members) members

def namesBlocked (blocked : BlockedVersions) (target : JsonTree N) : Bool :=
  match target with
  | .string version => blocked.contains version
  | _ => false

/-- No `latest`, or one that cannot stay. -/
def latestIsStale (blocked : BlockedVersions) (tags : Members N) : Bool :=
  match tags.lookup "latest" with
  | some (.string version) => blocked.contains version
  | _ => true

/-- The tags without those on blocked versions; `latest` is repaired rather than dropped. -/
def keptTags (blocked : BlockedVersions) (tags : Members N) : Members N :=
  tags.filter fun entry => !namesBlocked blocked entry.2 || decide (entry.1 = "latest")

def repairDistTags (blocked : BlockedVersions) (surviving : List String) (tags : Members N) :
    Members N :=
  match bestLatest lib preEmpty surviving with
  | none => erase "latest" (keptTags blocked tags)
  | some best =>
    if latestIsStale blocked (keptTags blocked tags) then
      insert "latest" (.string best) (keptTags blocked tags)
    else keptTags blocked tags

def versionsOf (doc : JsonTree N) : Members N :=
  match get doc "versions" with
  | some (.object versions) => versions
  | _ => []

/-- The versions of the document that are blocked, as it spells them. -/
def hits (blocked : BlockedVersions) (doc : JsonTree N) : List String :=
  ((versionsOf doc).map Prod.fst).filter blocked.contains

def stripMembers (blocked : BlockedVersions) (removed : List String) (members : Members N) :
    Members N :=
  let members := modify "versions" (onObject (eraseAll removed)) members
  let members := modify "time" (onObject (eraseAll removed)) members
  let surviving := (versionsOf (.object members)).map Prod.fst
  modify "dist-tags" (onObject (repairDistTags lib preEmpty blocked surviving)) members

def stripPackument (blocked : BlockedVersions) (doc : JsonTree N) : JsonTree N × List String :=
  if blocked.versions = [] then (doc, [])
  else
    match doc with
    | .object members =>
      let removed := hits blocked doc
      if removed = [] then (doc, [])
      else (.object (stripMembers lib preEmpty blocked removed members), removed)
    | _ => (doc, [])

end Stripping

section Documents
variable {N : Type}

/-- The object that stands under a key, or none. -/
def objectAt (key : String) (doc : JsonTree N) : Option (Members N) :=
  match get doc key with
  | some (.object members) => some members
  | _ => none

theorem versionsOf_eq (doc : JsonTree N) : versionsOf doc = (objectAt "versions" doc).getD [] := by
  unfold versionsOf objectAt
  split <;> rfl

theorem objectAt_modify (key : String) (f : Members N → Members N) (members : Members N)
    (other : String) :
    objectAt other (.object (modify key (onObject f) members)) =
      if other = key then (objectAt other (.object members)).map f
      else objectAt other (.object members) := by
  unfold objectAt
  have hget : ∀ m : Members N, get (.object m) other = m.lookup other := fun _ => rfl
  rw [hget, hget, lookup_modify]
  by_cases hkey : other = key
  · rw [if_pos hkey, if_pos hkey]
    cases hlook : members.lookup other with
    | none => rfl
    | some t => cases t <;> rfl
  · rw [if_neg hkey, if_neg hkey]

theorem eraseAll_eq (keys : List String) (members : Members N) :
    eraseAll keys members = members.filter fun entry => decide (entry.1 ∉ keys) := by
  induction keys generalizing members with
  | nil => simp [eraseAll]
  | cons key keys ih =>
    have hstep : eraseAll (key :: keys) members = eraseAll keys (erase key members) := rfl
    rw [hstep, ih, erase, List.filter_filter]
    refine List.filter_congr fun entry _ => ?_
    by_cases h : entry.1 = key <;> simp [h]

/-- The versions that are left, with what the document says of each. -/
def survivors (blocked : BlockedVersions) (versions : Members N) : Members N :=
  versions.filter fun entry => !blocked.contains entry.1

theorem eraseAll_hits (blocked : BlockedVersions) (doc : JsonTree N) :
    eraseAll (hits blocked doc) (versionsOf doc) = survivors blocked (versionsOf doc) := by
  rw [eraseAll_eq, survivors]
  refine List.filter_congr fun entry hentry => ?_
  have hkey : entry.1 ∈ (versionsOf doc).map Prod.fst := List.mem_map_of_mem hentry
  cases hblocked : blocked.contains entry.1 with
  | true => exact decide_eq_false (by simp [hits, hkey, hblocked])
  | false => exact decide_eq_true (by simp [hits, hblocked])

/-- Every tag on a version names one that the document lists. -/
def Consistent (doc : JsonTree N) : Prop :=
  ∀ tags, objectAt "dist-tags" doc = some tags →
    ∀ tag version, tags.lookup tag = some (.string version) →
      version ∈ (versionsOf doc).map Prod.fst

/-- A document as it is parsed: its objects are maps. -/
def IsParsed : JsonTree N → Prop
  | .object members => Sorted members ∧ ∀ entry ∈ members, IsMap entry.2
  | _ => True

instance : (doc : JsonTree N) → Decidable (IsParsed doc)
  | .object members =>
    inferInstanceAs (Decidable (Sorted members ∧ ∀ entry ∈ members, IsMap entry.2))
  | .null | .bool _ | .number _ | .string _ | .array _ => isTrue trivial

theorem objectAt_eq_some_iff (key : String) (members m : Members N) :
    objectAt key (.object members) = some m ↔ members.lookup key = some (.object m) := by
  have hget : get (.object members) key = members.lookup key := rfl
  unfold objectAt
  rw [hget]
  constructor
  · intro h
    split at h
    · rename_i m' hlook
      rw [hlook, Option.some.inj h]
    · cases h
  · intro h
    rw [h]

theorem IsParsed.sorted_at {doc : JsonTree N} (h : IsParsed doc) {key : String}
    {members : Members N} (hat : objectAt key doc = some members) : Sorted members := by
  cases doc with
  | object all => exact h.2 _ (mem_of_lookup ((objectAt_eq_some_iff key all members).mp hat))
  | _ => cases hat

end Documents

section Tags
variable {N Pre Build : Type} {lib : Semver Pre Build} {preEmpty : Pre → Bool}

theorem sorted_repairDistTags {tags : Members N} (h : Sorted tags) (blocked : BlockedVersions)
    (surviving : List String) : Sorted (repairDistTags lib preEmpty blocked surviving tags) := by
  have hkept : Sorted (keptTags blocked tags) := h.filter _
  unfold repairDistTags
  split
  · exact hkept.erase "latest"
  · split
    · exact hkept.insert "latest" _
    · exact hkept

/-- A tag but `latest` stays unless its version is blocked. -/
theorem lookup_repairDistTags {tags : Members N} (h : Sorted tags) (blocked : BlockedVersions)
    (surviving : List String) {tag : String} (htag : tag ≠ "latest") :
    (repairDistTags lib preEmpty blocked surviving tags).lookup tag =
      (tags.lookup tag).filter fun target => !namesBlocked blocked target := by
  have hkept : (keptTags blocked tags).lookup tag =
      (tags.lookup tag).filter fun target => !namesBlocked blocked target := by
    rw [keptTags, h.lookup_filter]
    simp [htag]
  unfold repairDistTags
  split
  · rw [lookup_erase, if_neg htag, hkept]
  · split
    · rw [lookup_insert, if_neg htag, hkept]
    · exact hkept

theorem lookup_latest_keptTags {tags : Members N} (h : Sorted tags) (blocked : BlockedVersions) :
    (keptTags blocked tags).lookup "latest" = tags.lookup "latest" := by
  rw [keptTags, h.lookup_filter]
  cases tags.lookup "latest" <;> simp

/-- `latest` stays on a version that is left, or moves to the best one. -/
theorem lookup_latest_repairDistTags {tags : Members N} (h : Sorted tags)
    (blocked : BlockedVersions) (surviving : List String) :
    (repairDistTags lib preEmpty blocked surviving tags).lookup "latest" =
      match bestLatest lib preEmpty surviving with
      | none => none
      | some best =>
        if latestIsStale blocked tags then some (.string best) else tags.lookup "latest" := by
  have hkept := lookup_latest_keptTags h blocked
  have hstale : latestIsStale blocked (keptTags blocked tags) = latestIsStale blocked tags := by
    unfold latestIsStale
    rw [hkept]
  unfold repairDistTags
  rw [hstale]
  split
  · rw [lookup_erase, if_pos rfl]
  · split
    · rw [lookup_insert, if_pos rfl]
    · exact hkept

end Tags

section Strips
variable {N Pre Build : Type} {lib : Semver Pre Build} {preEmpty : Pre → Bool}

theorem contains_of_no_blocks {blocked : BlockedVersions} (h : blocked.versions = [])
    (version : String) : blocked.contains version = false := by
  simp [BlockedVersions.contains, h]

theorem stripPackument_of_no_hits {blocked : BlockedVersions} {doc : JsonTree N}
    (h : hits blocked doc = []) : stripPackument lib preEmpty blocked doc = (doc, []) := by
  unfold stripPackument
  split
  · rfl
  · cases doc with
    | object members => simp only [h, if_true]
    | _ => rfl

theorem stripPackument_of_hits {blocked : BlockedVersions} {members : Members N}
    (h : hits blocked (.object members) ≠ []) :
    stripPackument lib preEmpty blocked (.object members) =
      (.object (stripMembers lib preEmpty blocked (hits blocked (.object members)) members),
        hits blocked (.object members)) := by
  have hblocks : blocked.versions ≠ [] := by
    intro hnone
    apply h
    rw [hits, List.filter_eq_nil_iff]
    intro version _
    rw [contains_of_no_blocks hnone]
    exact Bool.false_ne_true
  unfold stripPackument
  rw [if_neg hblocks]
  dsimp only
  rw [if_neg h]

variable {blocked : BlockedVersions} {members : Members N}

theorem objectAt_versions_stripMembers :
    objectAt "versions" (.object (stripMembers lib preEmpty blocked
        (hits blocked (.object members)) members)) =
      (objectAt "versions" (.object members)).map (survivors blocked) := by
  unfold stripMembers
  rw [objectAt_modify, if_neg (by decide), objectAt_modify, if_neg (by decide), objectAt_modify,
    if_pos rfl]
  cases hversions : objectAt "versions" (.object members) with
  | none => rfl
  | some versions =>
    have hall := eraseAll_hits blocked (.object members)
    rw [versionsOf_eq, hversions] at hall
    exact congrArg some hall

theorem versionsOf_stripMembers :
    versionsOf (.object (stripMembers lib preEmpty blocked (hits blocked (.object members))
        members)) = survivors blocked (versionsOf (.object members)) := by
  rw [versionsOf_eq, objectAt_versions_stripMembers, versionsOf_eq]
  cases objectAt "versions" (.object members) <;> rfl

theorem objectAt_time_stripMembers (removed : List String) :
    objectAt "time" (.object (stripMembers lib preEmpty blocked removed members)) =
      (objectAt "time" (.object members)).map fun time =>
        time.filter fun entry => decide (entry.1 ∉ removed) := by
  unfold stripMembers
  rw [objectAt_modify, if_neg (by decide), objectAt_modify, if_pos rfl, objectAt_modify,
    if_neg (by decide)]
  cases objectAt "time" (.object members) with
  | none => rfl
  | some time => exact congrArg some (eraseAll_eq removed time)

theorem versionsOf_erased :
    versionsOf (.object (modify "time" (onObject (eraseAll (hits blocked (.object members))))
        (modify "versions" (onObject (eraseAll (hits blocked (.object members)))) members))) =
      survivors blocked (versionsOf (.object members)) := by
  rw [versionsOf_eq, objectAt_modify, if_neg (by decide), objectAt_modify, if_pos rfl]
  cases hversions : objectAt "versions" (.object members) with
  | none =>
    rw [versionsOf_eq, hversions]
    rfl
  | some versions =>
    have hall := eraseAll_hits blocked (.object members)
    rw [versionsOf_eq, hversions] at hall
    rw [versionsOf_eq, hversions]
    exact hall

theorem objectAt_tags_stripMembers :
    objectAt "dist-tags" (.object (stripMembers lib preEmpty blocked
        (hits blocked (.object members)) members)) =
      (objectAt "dist-tags" (.object members)).map (repairDistTags lib preEmpty blocked
        ((survivors blocked (versionsOf (.object members))).map Prod.fst)) := by
  unfold stripMembers
  dsimp only
  rw [versionsOf_erased, objectAt_modify, if_pos rfl, objectAt_modify, if_neg (by decide),
    objectAt_modify, if_neg (by decide)]

theorem sorted_stripMembers (h : Sorted members) (removed : List String) :
    Sorted (stripMembers lib preEmpty blocked removed members) :=
  ((h.modify _ _).modify _ _).modify _ _

theorem lookup_stripMembers_other (removed : List String) {key : String}
    (hversions : key ≠ "versions") (htime : key ≠ "time") (htags : key ≠ "dist-tags") :
    (stripMembers lib preEmpty blocked removed members).lookup key = members.lookup key := by
  unfold stripMembers
  rw [lookup_modify, if_neg htags, lookup_modify, if_neg htime, lookup_modify, if_neg hversions]

end Strips

section Sample

/-- Three versions, and a tag on each of the last two. -/
def samplePackument : JsonTree ℕ :=
  .object [("dist-tags", .object [("beta", .string "1.1.0"), ("latest", .string "2.0.0")]),
    ("time", .object [("1.1.0", .number 5), ("2.0.0", .number 7), ("created", .number 1)]),
    ("versions", .object [("1.0.0", .null), ("1.1.0", .null), ("2.0.0", .null)])]

theorem consistent_samplePackument : Consistent samplePackument := by
  intro tags htags tag version hlook
  obtain rfl := Option.some.inj htags
  have hmem := mem_of_lookup hlook
  simp only [List.mem_cons, List.not_mem_nil, or_false, Prod.mk.injEq, JsonTree.string.injEq]
    at hmem
  rcases hmem with ⟨-, rfl⟩ | ⟨-, rfl⟩ <;> decide

theorem transCmp_samplePre : Std.TransCmp NewestFirst.sampleComparePre :=
  inferInstanceAs (Std.TransCmp (compareLex (compareOn String.isEmpty) compare))

end Sample

section Main
variable {N Pre Build : Type} {lib : Semver Pre Build} {preEmpty : Pre → Bool}

theorem mem_survivors_iff (blocked : BlockedVersions) (versions : Members N) (version : String) :
    version ∈ (survivors blocked versions).map Prod.fst ↔
      version ∈ versions.map Prod.fst ∧ blocked.contains version = false := by
  rw [survivors]
  simp only [List.mem_map, List.mem_filter, Bool.not_eq_true']
  constructor
  · intro hleft
    obtain ⟨entry, ⟨hmem, hfree⟩, rfl⟩ := hleft
    exact ⟨⟨entry, hmem, rfl⟩, hfree⟩
  · intro hright
    obtain ⟨⟨entry, hmem, rfl⟩, hfree⟩ := hright
    exact ⟨entry, ⟨hmem, hfree⟩, rfl⟩

theorem survivors_of_no_hits {blocked : BlockedVersions} {doc : JsonTree N}
    (h : hits blocked doc = []) : survivors blocked (versionsOf doc) = versionsOf doc := by
  rw [← eraseAll_hits, h]
  rfl

/-- No tag of a consistent document names a blocked version where none is listed. -/
theorem namesBlocked_of_no_hits {blocked : BlockedVersions} {doc : JsonTree N}
    (hdoc : Consistent doc) (h : hits blocked doc = []) {tags : Members N}
    (htags : objectAt "dist-tags" doc = some tags) {tag : String} {target : JsonTree N}
    (hlook : tags.lookup tag = some target) : namesBlocked blocked target = false := by
  cases target with
  | string version =>
    have hlisted := hdoc tags htags tag version hlook
    rw [hits, List.filter_eq_nil_iff] at h
    simpa [namesBlocked] using h version hlisted
  | _ => rfl

theorem latestIsStale_eq_false_iff (blocked : BlockedVersions) (tags : Members N) :
    latestIsStale blocked tags = false ↔
      ∃ version, tags.lookup "latest" = some (.string version) ∧
        blocked.contains version = false := by
  unfold latestIsStale
  split
  · rename_i version hlook
    simp [hlook]
  · rename_i hother
    simp only [Bool.true_eq_false, false_iff, not_exists, not_and]
    exact fun version hlook => absurd hlook (hother version)

section Repaired
variable {blocked : BlockedVersions} {versions tags : Members N} (hsorted : Sorted tags)
  (hnamed : ∀ tag version, tags.lookup tag = some (.string version) →
    version ∈ versions.map Prod.fst)
include hsorted hnamed

/-- `latest` stays where it can, since there is a version left for it. -/
theorem latest_stays (hfree : latestIsStale blocked tags = false) :
    (repairDistTags lib preEmpty blocked ((survivors blocked versions).map Prod.fst) tags).lookup
      "latest" = tags.lookup "latest" := by
  obtain ⟨version, hlook, hversion⟩ := (latestIsStale_eq_false_iff blocked tags).mp hfree
  have hleft := (mem_survivors_iff blocked versions version).mpr
    ⟨hnamed "latest" version hlook, hversion⟩
  rw [lookup_latest_repairDistTags hsorted, hfree]
  cases hbest : bestLatest lib preEmpty ((survivors blocked versions).map Prod.fst) with
  | none =>
    rw [(bestLatest_eq_none_iff _).mp hbest] at hleft
    cases hleft
  | some best => rfl

/-- Every repaired tag names a version that is left. -/
theorem repaired_names_survivors {tag version : String}
    (h : (repairDistTags lib preEmpty blocked ((survivors blocked versions).map Prod.fst)
      tags).lookup tag = some (.string version)) :
    version ∈ (survivors blocked versions).map Prod.fst := by
  by_cases htag : tag = "latest"
  · subst htag
    cases hstale : latestIsStale blocked tags with
    | false =>
      rw [latest_stays hsorted hnamed hstale] at h
      obtain ⟨version', hlook, hfree⟩ := (latestIsStale_eq_false_iff blocked tags).mp hstale
      rw [hlook] at h
      injection h with h
      injection h with h
      subst h
      exact (mem_survivors_iff _ _ _).mpr ⟨hnamed _ _ hlook, hfree⟩
    | true =>
      rw [lookup_latest_repairDistTags hsorted, hstale] at h
      cases hbest : bestLatest lib preEmpty ((survivors blocked versions).map Prod.fst) with
      | none =>
        rw [hbest] at h
        cases h
      | some best =>
        rw [hbest] at h
        injection h with h
        injection h with h
        subst h
        exact mem_of_bestLatest hbest
  · rw [lookup_repairDistTags hsorted blocked _ htag, Option.filter_eq_some_iff] at h
    exact (mem_survivors_iff _ _ _).mpr ⟨hnamed _ _ h.1, by simpa [namesBlocked] using h.2⟩

end Repaired

/-- A consistent packument stays one: it lists the versions that are not blocked, with what it
said of them, and forgets the times of the others. Tags stay on the versions that are left;
`latest` moves to the best of these where it cannot stay. -/
theorem strip_leaves_a_consistent_packument (blocked : BlockedVersions) {doc doc' : JsonTree N}
    {removed : List String} (hparsed : IsParsed doc) (hdoc : Consistent doc)
    (hstrip : stripPackument lib preEmpty blocked doc = (doc', removed)) :
    Consistent doc' ∧ versionsOf doc' = survivors blocked (versionsOf doc) ∧
      objectAt "time" doc' = (objectAt "time" doc).map (fun time =>
        time.filter fun entry => decide (entry.1 ∉ removed)) ∧
      (∀ tags, objectAt "dist-tags" doc = some tags →
        ∃ tags', objectAt "dist-tags" doc' = some tags' ∧
          (∀ tag, tag ≠ "latest" → tags'.lookup tag =
            (tags.lookup tag).filter fun target => !namesBlocked blocked target) ∧
          (latestIsStale blocked tags = false → tags'.lookup "latest" = tags.lookup "latest") ∧
          (removed ≠ [] → latestIsStale blocked tags = true → tags'.lookup "latest" =
            (bestLatest lib preEmpty ((versionsOf doc').map Prod.fst)).map .string)) ∧
      ∀ key, key ≠ "versions" → key ≠ "time" → key ≠ "dist-tags" → get doc' key = get doc key := by
  by_cases hnone : hits blocked doc = []
  · rw [stripPackument_of_no_hits hnone] at hstrip
    obtain ⟨rfl, rfl⟩ := Prod.ext_iff.mp hstrip
    refine ⟨hdoc, (survivors_of_no_hits hnone).symm, ?_, ?_, fun _ _ _ _ => rfl⟩
    · cases objectAt "time" doc with
      | none => rfl
      | some time =>
        have hall : time.filter (fun entry => decide (entry.1 ∉ ([] : List String))) = time :=
          List.filter_eq_self.mpr fun entry _ => by simp
        rw [Option.map_some, hall]
    · intro tags htags
      refine ⟨tags, htags, fun tag _ => ?_, fun _ => rfl, fun hne => absurd rfl hne⟩
      cases hlook : tags.lookup tag with
      | none => rfl
      | some target =>
        have hfree := namesBlocked_of_no_hits hdoc hnone htags hlook
        exact (Option.filter_some_pos (by rw [hfree]; rfl)).symm
  · cases doc with
    | object members =>
      rw [stripPackument_of_hits hnone] at hstrip
      obtain ⟨rfl, rfl⟩ := Prod.ext_iff.mp hstrip
      dsimp only
      rw [versionsOf_stripMembers]
      refine ⟨?_, rfl, objectAt_time_stripMembers _, ?_, ?_⟩
      · intro tags' htags' tag version hlook
        rw [objectAt_tags_stripMembers] at htags'
        obtain ⟨tags, htags, rfl⟩ := Option.map_eq_some_iff.mp htags'
        rw [versionsOf_stripMembers]
        exact repaired_names_survivors (hparsed.sorted_at htags) (hdoc tags htags) hlook
      · intro tags htags
        have hsorted := hparsed.sorted_at htags
        refine ⟨_, by rw [objectAt_tags_stripMembers, htags]; rfl, ?_, ?_, ?_⟩
        · exact fun tag htag => lookup_repairDistTags hsorted blocked _ htag
        · exact fun hfree => latest_stays hsorted (hdoc tags htags) hfree
        · intro _ hstale
          rw [lookup_latest_repairDistTags hsorted, hstale]
          cases bestLatest lib preEmpty
            ((survivors blocked (versionsOf (.object members))).map Prod.fst) <;> rfl
      · intro key hversions htime htags
        exact lookup_stripMembers_other _ hversions htime htags
    | _ => exact absurd rfl hnone

/-- The greatest version and a tagged one are blocked: `latest` moves, `beta` goes. -/
theorem latest_moves_to_the_survivor :
    Consistent (.object [("dist-tags", .object [("latest", .string "1.0.0")]),
        ("time", .object [("created", .number 1)]),
        ("versions", .object [("1.0.0", .null)])] : JsonTree ℕ) := by
  have hstrip : stripPackument NewestFirst.sampleSemver String.isEmpty ⟨["2.0.0", "1.1.0"]⟩
      samplePackument =
        (.object [("dist-tags", .object [("latest", .string "1.0.0")]),
          ("time", .object [("created", .number 1)]),
          ("versions", .object [("1.0.0", .null)])], ["1.1.0", "2.0.0"]) := by
    decide +kernel
  exact (strip_leaves_a_consistent_packument ⟨["2.0.0", "1.1.0"]⟩ (by decide)
    consistent_samplePackument hstrip).1

end Main

section Composition
variable {N Pre Build : Type} {lib : Semver Pre Build} {preEmpty : Pre → Bool}

/-- What one of two lists blocks. -/
def union (blocked more : BlockedVersions) : BlockedVersions := ⟨blocked.versions ++ more.versions⟩

theorem contains_union (blocked more : BlockedVersions) (version : String) :
    (union blocked more).contains version =
      (blocked.contains version || more.contains version) := by
  simp [BlockedVersions.contains, union]

theorem namesBlocked_union (blocked more : BlockedVersions) (target : JsonTree N) :
    namesBlocked (union blocked more) target =
      (namesBlocked blocked target || namesBlocked more target) := by
  cases target <;> simp [namesBlocked, contains_union]

theorem survivors_union (blocked more : BlockedVersions) (versions : Members N) :
    survivors (union blocked more) versions = survivors more (survivors blocked versions) := by
  unfold survivors
  rw [List.filter_filter]
  refine List.filter_congr fun entry _ => ?_
  rw [contains_union, Bool.not_or, Bool.and_comm]

theorem keys_survivors (blocked : BlockedVersions) (versions : Members N) :
    (survivors blocked versions).map Prod.fst =
      (versions.map Prod.fst).filter fun version => !blocked.contains version := by
  rw [survivors, List.filter_map]
  rfl

theorem latestIsStale_congr (blocked : BlockedVersions) {tags tags' : Members N}
    (h : tags.lookup "latest" = tags'.lookup "latest") :
    latestIsStale blocked tags = latestIsStale blocked tags' := by
  unfold latestIsStale
  rw [h]

theorem latestIsStale_union (blocked more : BlockedVersions) (tags : Members N) :
    latestIsStale (union blocked more) tags =
      (latestIsStale blocked tags || latestIsStale more tags) := by
  unfold latestIsStale
  split
  · exact contains_union blocked more _
  · rfl

/-- Tags repaired for one list of blocks and then for another are repaired for both. -/
theorem repairDistTags_twice [Std.TransCmp (compareVersions lib)] {tags : Members N}
    (hsorted : Sorted tags) (blocked more : BlockedVersions) (versions : Members N) :
    repairDistTags lib preEmpty more
        ((survivors more (survivors blocked versions)).map Prod.fst)
        (repairDistTags lib preEmpty blocked ((survivors blocked versions).map Prod.fst) tags) =
      repairDistTags lib preEmpty (union blocked more)
        ((survivors (union blocked more) versions).map Prod.fst) tags := by
  have hfirst : Sorted (repairDistTags lib preEmpty blocked
      ((survivors blocked versions).map Prod.fst) tags) := sorted_repairDistTags hsorted _ _
  refine (sorted_repairDistTags hfirst _ _).ext (sorted_repairDistTags hsorted _ _) fun tag => ?_
  by_cases htag : tag = "latest"
  · subst htag
    have hboth : (repairDistTags lib preEmpty (union blocked more)
        ((survivors (union blocked more) versions).map Prod.fst) tags).lookup "latest" = _ :=
      lookup_latest_repairDistTags hsorted _ _
    have hlatest : (repairDistTags lib preEmpty blocked
        ((survivors blocked versions).map Prod.fst) tags).lookup "latest" = _ :=
      lookup_latest_repairDistTags hsorted _ _
    rw [hboth, lookup_latest_repairDistTags hfirst, survivors_union, latestIsStale_union]
    cases hbest : bestLatest lib preEmpty
        ((survivors more (survivors blocked versions)).map Prod.fst) with
    | none => rfl
    | some best =>
      rw [keys_survivors] at hbest
      cases hbest' : bestLatest lib preEmpty ((survivors blocked versions).map Prod.fst) with
      | none =>
        rw [(bestLatest_eq_none_iff _).mp hbest'] at hbest
        cases hbest
      | some best' =>
        rw [hbest'] at hlatest
        dsimp only at hlatest ⊢
        cases hstale : latestIsStale blocked tags with
        | false =>
          rw [hstale] at hlatest
          rw [latestIsStale_congr more hlatest, Bool.false_or, hlatest]
          rfl
        | true =>
          rw [hstale, if_pos rfl] at hlatest
          rw [Bool.true_or, if_pos rfl, hlatest]
          cases hmore : more.contains best' with
          | true => simp [latestIsStale, hlatest, hmore]
          | false =>
            -- the best version that was left is still the best one
            have hsame := bestLatest_filter (p := fun version => !more.contains version) hbest'
              (by simp [hmore])
            rw [hbest] at hsame
            rw [Option.some.inj hsame]
            simp
  · rw [lookup_repairDistTags hfirst _ _ htag, lookup_repairDistTags hsorted _ _ htag,
      lookup_repairDistTags hsorted _ _ htag, Option.filter_filter]
    congr 1
    funext target
    rw [namesBlocked_union, Bool.not_or, Bool.and_comm]

theorem onObject_onObject (f g : Members N → Members N) (t : JsonTree N) :
    onObject f (onObject g t) = onObject (fun members => f (g members)) t := by
  cases t <;> rfl

theorem onObject_congr {f g : Members N → Members N} {t : JsonTree N}
    (h : ∀ members, t = .object members → f members = g members) :
    onObject f t = onObject g t := by
  cases t with
  | object members => exact congrArg JsonTree.object (h members rfl)
  | _ => rfl

/-- What a strip does to each member of the document. -/
def edit (lib : Semver Pre Build) (preEmpty : Pre → Bool) (blocked : BlockedVersions)
    (versions : Members N) (key : String) (members : Members N) : Members N :=
  if key = "dist-tags" then
    repairDistTags lib preEmpty blocked ((survivors blocked versions).map Prod.fst) members
  else if key = "time" ∨ key = "versions" then
    members.filter fun entry => decide (entry.1 ∉ (versions.map Prod.fst).filter blocked.contains)
  else members

theorem lookup_stripMembers (blocked : BlockedVersions) (members : Members N) (key : String) :
    (stripMembers lib preEmpty blocked (hits blocked (.object members)) members).lookup key =
      (members.lookup key).map
        (onObject (edit lib preEmpty blocked (versionsOf (.object members)) key)) := by
  have herase : eraseAll (hits blocked (.object members)) = fun m : Members N =>
      m.filter fun entry => decide (entry.1 ∉
        ((versionsOf (.object members)).map Prod.fst).filter blocked.contains) :=
    funext fun m => eraseAll_eq _ m
  have hid : onObject (fun m : Members N => m) = id := funext fun t => by cases t <;> rfl
  unfold stripMembers
  dsimp only
  rw [versionsOf_erased, lookup_modify, lookup_modify, lookup_modify]
  unfold edit
  by_cases htags : key = "dist-tags"
  · subst htags
    simp
  · by_cases htime : key = "time"
    · subst htime
      simp [herase]
    · by_cases hversions : key = "versions"
      · subst hversions
        simp [herase]
      · simp only [if_neg htags, htime, hversions, or_self, if_false, hid, Option.map_id_fun, id]

theorem mem_hits_union_iff (blocked more : BlockedVersions) (versions : Members N)
    (version : String) :
    version ∈ (versions.map Prod.fst).filter (union blocked more).contains ↔
      version ∈ (versions.map Prod.fst).filter blocked.contains ∨
        version ∈ ((survivors blocked versions).map Prod.fst).filter more.contains := by
  simp only [List.mem_filter, mem_survivors_iff, contains_union, Bool.or_eq_true]
  cases blocked.contains version <;> simp

/-- One strip after the other does to a member what a strip for both does. -/
theorem edit_twice [Std.TransCmp (compareVersions lib)] (blocked more : BlockedVersions)
    (versions : Members N) (key : String) {members : Members N} (hsorted : Sorted members) :
    edit lib preEmpty more (survivors blocked versions) key
        (edit lib preEmpty blocked versions key members) =
      edit lib preEmpty (union blocked more) versions key members := by
  unfold edit
  by_cases htags : key = "dist-tags"
  · simp only [if_pos htags]
    exact repairDistTags_twice hsorted blocked more versions
  · simp only [if_neg htags]
    split
    · rw [List.filter_filter]
      refine List.filter_congr fun entry _ => ?_
      have hboth := mem_hits_union_iff blocked more versions entry.1
      rw [← Bool.decide_and, decide_eq_decide, hboth, not_or, And.comm]
    · rfl

/-- Blocks that agree on what a document names do the same to it. -/
theorem edit_congr {blocked blocked' : BlockedVersions} {versions : Members N}
    (hversions : ∀ version ∈ versions.map Prod.fst,
      blocked.contains version = blocked'.contains version) {key : String} {members : Members N}
    (hsorted : Sorted members)
    (hnamed : key = "dist-tags" → ∀ tag version, members.lookup tag = some (.string version) →
      version ∈ versions.map Prod.fst) :
    edit lib preEmpty blocked versions key members =
      edit lib preEmpty blocked' versions key members := by
  have hsurvivors : survivors blocked versions = survivors blocked' versions :=
    List.filter_congr fun entry hentry => by rw [hversions _ (List.mem_map_of_mem hentry)]
  have hhits : (versions.map Prod.fst).filter blocked.contains =
      (versions.map Prod.fst).filter blocked'.contains := List.filter_congr hversions
  unfold edit
  rw [hsurvivors, hhits]
  split
  · rename_i htags
    have hsame : ∀ tag target, members.lookup tag = some target →
        namesBlocked blocked target = namesBlocked blocked' target := by
      intro tag target hlook
      cases target with
      | string version => exact hversions version (hnamed htags tag version hlook)
      | _ => rfl
    refine (sorted_repairDistTags hsorted _ _).ext (sorted_repairDistTags hsorted _ _) fun tag => ?_
    by_cases htag : tag = "latest"
    · have hstale : latestIsStale blocked members = latestIsStale blocked' members := by
        unfold latestIsStale
        split
        · rename_i version hlook
          exact hsame "latest" _ hlook
        · rfl
      rw [htag, lookup_latest_repairDistTags hsorted, lookup_latest_repairDistTags hsorted, hstale]
    · rw [lookup_repairDistTags hsorted _ _ htag, lookup_repairDistTags hsorted _ _ htag]
      cases hlook : members.lookup tag with
      | none => rfl
      | some target => rw [Option.filter_some, Option.filter_some, hsame tag target hlook]
  · rfl

/-- Blocks that agree on the versions of a document take the same out of it. -/
theorem stripPackument_congr {blocked blocked' : BlockedVersions} {doc : JsonTree N}
    (hparsed : IsParsed doc) (hdoc : Consistent doc)
    (h : ∀ version ∈ (versionsOf doc).map Prod.fst,
      blocked.contains version = blocked'.contains version) :
    stripPackument lib preEmpty blocked doc = stripPackument lib preEmpty blocked' doc := by
  have hhits : hits blocked doc = hits blocked' doc := List.filter_congr h
  by_cases hnone : hits blocked doc = []
  · rw [stripPackument_of_no_hits hnone, stripPackument_of_no_hits (hhits ▸ hnone)]
  · cases doc with
    | object members =>
      rw [stripPackument_of_hits hnone, stripPackument_of_hits (hhits ▸ hnone)]
      refine Prod.ext (congrArg JsonTree.object ?_) hhits
      have hsorted : Sorted members := hparsed.1
      refine (sorted_stripMembers hsorted _).ext (sorted_stripMembers hsorted _) fun key => ?_
      rw [lookup_stripMembers, lookup_stripMembers]
      cases hlook : members.lookup key with
      | none => rfl
      | some t =>
        refine congrArg some (onObject_congr fun m heq => ?_)
        subst heq
        have hat := (objectAt_eq_some_iff key members m).mpr hlook
        refine edit_congr h (hparsed.sorted_at hat) fun htags => ?_
        subst htags
        exact hdoc m hat
    | _ => exact absurd rfl hnone

/-- What is blocked later is taken out as if it had been blocked before: two strips, one after
the other, are the strip for the blocks of both. -/
theorem strips_compose (hpre : Std.TransCmp lib.comparePre)
    (hbuild : Std.TransCmp lib.compareBuild) (blocked more : BlockedVersions)
    {doc : JsonTree N} (hparsed : IsParsed doc) (hdoc : Consistent doc) :
    (stripPackument lib preEmpty more (stripPackument lib preEmpty blocked doc).1).1 =
      (stripPackument lib preEmpty (union blocked more) doc).1 := by
  have htrans := transCmp_compareVersions hpre hbuild
  by_cases hfirst : hits blocked doc = []
  · have hagree : ∀ version ∈ (versionsOf doc).map Prod.fst,
        more.contains version = (union blocked more).contains version := by
      intro version hversion
      have hfree := List.filter_eq_nil_iff.mp hfirst version hversion
      simp [contains_union, hfree]
    rw [stripPackument_of_no_hits hfirst, stripPackument_congr hparsed hdoc hagree]
  · cases doc with
    | object members =>
      by_cases hsecond : hits more (.object (stripMembers lib preEmpty blocked
          (hits blocked (.object members)) members)) = []
      · have hagree : ∀ version ∈ (versionsOf (.object members)).map Prod.fst,
            blocked.contains version = (union blocked more).contains version := by
          intro version hversion
          rw [contains_union]
          cases hblocked : blocked.contains version with
          | true => rfl
          | false =>
            have hleft := (mem_survivors_iff blocked _ version).mpr ⟨hversion, hblocked⟩
            rw [hits, versionsOf_stripMembers, List.filter_eq_nil_iff] at hsecond
            simpa using (hsecond version hleft)
        rw [← stripPackument_congr hparsed hdoc hagree, stripPackument_of_hits hfirst,
          stripPackument_of_no_hits hsecond]
      · have hunion : hits (union blocked more) (.object members) ≠ [] := by
          intro hnone
          apply hfirst
          rw [hits, List.filter_eq_nil_iff] at hnone ⊢
          intro version hversion hblocked
          apply hnone version hversion
          rw [contains_union, hblocked]
          rfl
        rw [stripPackument_of_hits hfirst, stripPackument_of_hits hsecond,
          stripPackument_of_hits hunion]
        refine congrArg JsonTree.object ?_
        have hsorted : Sorted members := hparsed.1
        refine (sorted_stripMembers (sorted_stripMembers hsorted _) _).ext
          (sorted_stripMembers hsorted _) fun key => ?_
        rw [lookup_stripMembers, lookup_stripMembers, lookup_stripMembers,
          versionsOf_stripMembers, Option.map_map]
        cases hlook : members.lookup key with
        | none => rfl
        | some t =>
          refine congrArg some ((onObject_onObject _ _ t).trans (onObject_congr fun m heq => ?_))
          subst heq
          exact edit_twice blocked more _ key
            (hparsed.sorted_at ((objectAt_eq_some_iff key members m).mpr hlook))
    | _ => exact absurd rfl hfirst

/-- The greatest version is blocked, and then the one that `latest` moved to. -/
theorem two_versions_blocked_in_turn :
    (stripPackument NewestFirst.sampleSemver String.isEmpty ⟨["1.1.0"]⟩
        (stripPackument NewestFirst.sampleSemver String.isEmpty ⟨["2.0.0"]⟩
          samplePackument).1).1 =
      (stripPackument NewestFirst.sampleSemver String.isEmpty (union ⟨["2.0.0"]⟩ ⟨["1.1.0"]⟩)
        samplePackument).1 := by
  have hbuild : Std.TransCmp NewestFirst.sampleSemver.compareBuild :=
    { eq_swap := rfl, isLE_trans := fun _ _ => rfl }
  exact strips_compose transCmp_samplePre hbuild ⟨["2.0.0"]⟩ ⟨["1.1.0"]⟩ (by decide)
    consistent_samplePackument

end Composition

end BatleHub.Packuments
