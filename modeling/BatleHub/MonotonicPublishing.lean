import BatleHub.TombstoneRuns
import BatleHub.NewestFirst

/-!
Monotonic publishing (`local_registry/publish.rs`). The check compares a new version with
the newest of the listed ones. A history of publishes, yanks, unlists and deletes is kept
beside the coordinates it has published and those it has deleted, and what the store lists
is read off these.
-/
namespace BatleHub.MonotonicPublishing

open LocalPackages InMemoryRegistry RecordSteps TombstoneRuns NewestFirst Lib.AssocMap Lib.Runs

section Order
variable {α : Type*}

def better (cmp : α → α → Ordering) (best y : α) : α := if cmp best y = .gt then y else best

/-- `Iterator::min_by`: the first among the least. -/
def minBy (cmp : α → α → Ordering) : List α → Option α
  | [] => none
  | x :: xs => some (xs.foldl (better cmp) x)

variable {cmp : α → α → Ordering} [Std.TransCmp cmp]

theorem better_le (x y : α) : (cmp (better cmp x y) x).isLE ∧ (cmp (better cmp x y) y).isLE := by
  have hrefl : ∀ z, (cmp z z).isLE := fun z => by
    rw [(Std.ReflCmp.compare_self : cmp z z = .eq)]
    rfl
  unfold better
  split
  · rename_i hgt
    refine ⟨?_, hrefl y⟩
    rw [Std.OrientedCmp.lt_of_gt hgt]
    rfl
  · rename_i hle
    exact ⟨hrefl x, Ordering.isLE_iff_ne_gt.mpr hle⟩

theorem foldl_better_le (x : α) (xs : List α) :
    ∀ y ∈ x :: xs, (cmp (xs.foldl (better cmp) x) y).isLE := by
  induction xs generalizing x with
  | nil =>
    intro y hy
    obtain rfl := List.mem_singleton.mp hy
    rw [List.foldl_nil, (Std.ReflCmp.compare_self : cmp y y = .eq)]
    rfl
  | cons z zs ih =>
    intro y hy
    have hbest := ih (better cmp x z) _ List.mem_cons_self
    rcases List.mem_cons.mp hy with rfl | hy
    · exact Std.TransCmp.isLE_trans hbest (better_le y z).1
    · rcases List.mem_cons.mp hy with rfl | hy
      · exact Std.TransCmp.isLE_trans hbest (better_le x y).2
      · exact ih (better cmp x z) y (List.mem_cons_of_mem _ hy)

/-- What comes before the least comes before all. -/
theorem lt_of_lt_minBy {xs : List α} {v m : α} (h : minBy cmp xs = some m)
    (hv : cmp v m = .lt) : ∀ y ∈ xs, cmp v y = .lt := by
  intro y hy
  cases xs with
  | nil => cases h
  | cons x xs =>
    obtain rfl := Option.some.inj h
    exact Std.TransCmp.lt_of_lt_of_isLE hv (foldl_better_le x xs y hy)

end Order

section NewestFirst

theorem compareVecs_eq (xs ys : List ℕ) : compareVecs xs ys = List.compareLex compare xs ys := by
  induction xs generalizing ys with
  | nil => cases ys with
    | nil => rfl
    | cons y ys => rfl
  | cons x xs ih => cases ys with
    | nil => rfl
    | cons y ys =>
      rw [compareVecs, List.compareLex_cons_cons, ih]

instance transCmp_compareVecs : Std.TransCmp compareVecs := by
  have heq : compareVecs = List.compareLex compare := funext₂ compareVecs_eq
  rw [heq]
  infer_instance

theorem transCmp_pullback {α β : Type*} {cmp : β → β → Ordering} [Std.TransCmp cmp] (f : α → β) :
    Std.TransCmp fun a b => cmp (f a) (f b) where
  eq_swap := by
    intro a b
    exact (Std.OrientedCmp.eq_swap : cmp (f a) (f b) = (cmp (f b) (f a)).swap)
  isLE_trans := by
    intro a b c hab hbc
    exact (Std.TransCmp.isLE_trans hab hbc : (cmp (f a) (f c)).isLE)

theorem transCmp_then {α : Type*} {cmp cmp' : α → α → Ordering} (h : Std.TransCmp cmp)
    (h' : Std.TransCmp cmp') : Std.TransCmp fun a b => (cmp a b).then (cmp' a b) :=
  inferInstanceAs (Std.TransCmp (compareLex cmp cmp'))

variable {Pre Build : Type*} (lib : Semver Pre Build)

section Total
variable [Std.TransCmp lib.comparePre] [Std.TransCmp lib.compareBuild]

theorem transCmp_compareVersions : Std.TransCmp (compareVersions lib) :=
  transCmp_then (transCmp_pullback Version.major) <|
    transCmp_then (transCmp_pullback Version.minor) <|
      transCmp_then (transCmp_pullback Version.patch) <|
        transCmp_then (transCmp_pullback Version.pre) (transCmp_pullback Version.build)

/-- The library's order, the extra components after it. -/
def compareParsed (v w : Version Pre Build × List ℕ) : Ordering :=
  (compareVersions lib v.1 w.1).then (compareVecs v.2 w.2)

instance transCmp_compareParsed : Std.TransCmp (compareParsed lib) :=
  have := transCmp_compareVersions lib
  transCmp_then (transCmp_pullback Prod.fst) (transCmp_pullback Prod.snd)

end Total

theorem newestFirst_eq (a b : String) : newestFirst lib a b =
    match parse lib a, parse lib b with
    | some v, some w => compareParsed lib w v
    | some _, none => .lt
    | none, some _ => .gt
    | none, none => compare b a := by
  unfold newestFirst compareParsed
  cases parse lib a with
  | none => cases parse lib b with
    | none => rfl
    | some w => rfl
  | some v => cases parse lib b with
    | none => rfl
    | some w => rfl

/-- A text that does not read as a version comes after every one that does; the order is total. -/
instance transCmp_newestFirst [Std.TransCmp lib.comparePre] [Std.TransCmp lib.compareBuild] :
    Std.TransCmp (newestFirst lib) where
  eq_swap := by
    intro a b
    rw [newestFirst_eq, newestFirst_eq]
    cases parse lib a with
    | none => cases parse lib b with
      | none => exact (Std.OrientedCmp.eq_swap : compare b a = (compare a b).swap)
      | some w => rfl
    | some v => cases parse lib b with
      | none => rfl
      | some w =>
        exact (Std.OrientedCmp.eq_swap : compareParsed lib w v = (compareParsed lib v w).swap)
  isLE_trans := by
    intro a b c hab hbc
    rw [newestFirst_eq] at hab hbc ⊢
    cases ha : parse lib a with
    | none => cases hb : parse lib b with
      | none => cases hc : parse lib c with
        | none =>
          simp only [ha, hb, hc] at hab hbc ⊢
          exact Std.TransCmp.isLE_trans hbc hab
        | some u => simp [hb, hc] at hbc
      | some w => simp [ha, hb] at hab
    | some v => cases hc : parse lib c with
      | none => rfl
      | some u => cases hb : parse lib b with
        | none => simp [hb, hc] at hbc
        | some w =>
          simp only [ha, hb, hc] at hab hbc ⊢
          exact Std.TransCmp.isLE_trans hbc hab

end NewestFirst

section Check
variable (env : TextEnv) {Pre Build : Type*} (lib : Semver Pre Build)

/-- The coordinate a publish asks for. -/
structure PublishPolicyRequest where
  registry : String
  name : String
  version : String

def notAbove (req : PublishPolicyRequest) (newest : String) : CoreError :=
  .conflict ("monotonic versioning: '" ++ req.version ++ "' does not sort above '" ++ newest ++
    "', the newest version of " ++ req.name ++ " in this registry. A yanked or deleted version " ++
    "still counts — that is what stops a coordinate from being re-taken. Bulk-import a history " ++
    "with monotonic = false and enable it afterwards.")

/-- A version must sort above the newest listed one, unless it is listed itself. -/
def checkMonotonic (monotonic : Bool) (req : PublishPolicyRequest) (store : Store) :
    Except CoreError Unit :=
  if !monotonic then .ok ()
  else
    let existing := getVersions env req.registry req.name store
    if existing.any fun p => decide (p.version = req.version) then .ok ()
    else
      match minBy (newestFirst lib) (existing.map (·.version)) with
      | none => .ok ()
      | some newest =>
        if newestFirst lib req.version newest = .lt then .ok () else .error (notAbove req newest)

/-- What a publish passes before it reaches the store: the spent coordinate, then the check. -/
def enforcePublishPolicy (monotonic : Bool) (req : PublishPolicyRequest) (store : Store) :
    Except CoreError Unit :=
  match findTombstone env req.registry req.name req.version store with
  | some ts => .error (.conflict (ts.burnedCoordinateMessage env))
  | none => checkMonotonic env lib monotonic req store

/-- How a publish ends that has its row: promoted, taken back, or left where the server died. -/
inductive Outcome where
  | committed
  | rolledBack
  | abandoned
deriving DecidableEq, Repr

/-- One call on a package. `monotonic` is the setting the publish resolves. -/
inductive Event where
  | publish (now : DateTime) (pkg : PublishedPackage) (monotonic : Bool) (outcome : Outcome)
  | yank (registry name version : String)
  | unyank (registry name version : String)
  | unlist (registry name version : String)
  | relist (registry name version : String)
  | delete (now : DateTime) (registry name version : String) (deletedBy : Option String)

/-- The store beside the coordinates that were ever published and those that were deleted. -/
structure History where
  store : Store
  published : List (String × String)
  deleted : List (String × String)

def History.empty : History := ⟨∅, [], []⟩

def requestOf (pkg : PublishedPackage) : PublishPolicyRequest :=
  ⟨pkg.registry, pkg.name, pkg.version⟩

def keyOf (pkg : PublishedPackage) : String × String :=
  recordKey env pkg.registry pkg.name pkg.version

/-- The reserved row is promoted or removed, or it stays pending. -/
def finish (pkg : PublishedPackage) (h : History) (reserved : Store) : Outcome → History
  | .committed =>
    { h with
      store := commitPublish env pkg.registry pkg.name pkg.version reserved
      published := keyOf env pkg :: h.published }
  | .rolledBack => { h with store := removeVersion env pkg.registry pkg.name pkg.version reserved }
  | .abandoned => { h with store := reserved }

def publishEvent (now : DateTime) (pkg : PublishedPackage) (monotonic : Bool) (outcome : Outcome)
    (h : History) : History :=
  match enforcePublishPolicy env lib monotonic (requestOf pkg) h.store with
  | .error _ => h
  | .ok () =>
    match publish env now pkg h.store with
    | .error _ => h
    | .ok reserved => finish env pkg h reserved outcome

def deleteEvent (now : DateTime) (registry name version : String) (deletedBy : Option String)
    (h : History) : History :=
  let result := tombstoneVersion env now registry name version deletedBy h.store
  { h with
    store := result.2
    deleted := if result.1 then recordKey env registry name version :: h.deleted else h.deleted }

def eventStep (h : History) : Event → History
  | .publish now pkg monotonic outcome => publishEvent env lib now pkg monotonic outcome h
  | .yank registry name version => { h with store := yank env registry name version h.store }
  | .unyank registry name version => { h with store := unyank env registry name version h.store }
  | .unlist registry name version => { h with store := unlist env registry name version h.store }
  | .relist registry name version => { h with store := relist env registry name version h.store }
  | .delete now registry name version deletedBy =>
    deleteEvent env now registry name version deletedBy h

end Check

section Histories
variable {env : TextEnv} {Pre Build : Type*} {lib : Semver Pre Build}

/-- The coordinate's record is published. -/
def Listed (store : Store) (key : String × String) : Prop :=
  ∃ r, store.lookup key = some r ∧ r.status = .published

/-- Listed is what was published and not deleted; what was deleted stays a tombstone. -/
structure Tracked (h : History) : Prop where
  coupled : Coupled h.store
  listed : ∀ key, Listed h.store key ↔ key ∈ h.published ∧ key ∉ h.deleted
  spent : ∀ key ∈ h.deleted, ∃ r, h.store.lookup key = some r ∧ r.status = .deleted

theorem tracked_empty : Tracked History.empty where
  coupled := coupled_empty
  listed := by
    intro key
    simp [Listed, History.empty]
  spent := by
    intro key hkey
    cases hkey

/-- A call that leaves every record's status alone keeps the books. -/
theorem tracked_of_status {h : History} {store : Store} (hh : Tracked h)
    (hcoupled : Coupled store)
    (hstatus : ∀ key,
      (store.lookup key).map Record.status = (h.store.lookup key).map Record.status) :
    Tracked { h with store := store } where
  coupled := hcoupled
  listed := by
    intro key
    rw [← hh.listed key]
    have heq := hstatus key
    constructor
    · rintro ⟨r, hr, hpublished⟩
      rw [hr, Option.map_some, hpublished] at heq
      exact Option.map_eq_some_iff.mp heq.symm
    · rintro ⟨r, hr, hpublished⟩
      rw [hr, Option.map_some, hpublished] at heq
      exact Option.map_eq_some_iff.mp heq
  spent := by
    intro key hkey
    obtain ⟨r, hr, hdeleted⟩ := hh.spent key hkey
    have heq := hstatus key
    rw [hr, Option.map_some, hdeleted] at heq
    exact Option.map_eq_some_iff.mp heq

theorem tracked_updatePackage {h : History} (hh : Tracked h) (registry name version : String)
    (f : PublishedPackage → PublishedPackage) (hf : ∀ p, (f p).version = p.version) :
    Tracked { h with store := updatePackage env registry name version f h.store } := by
  refine tracked_of_status hh ?_ ?_
  · have hkey := fun key => recordStep_coupled
      (updatePackage_record env registry name version f hf h.store key)
      (fun r hr => ⟨hh.coupled.coupled key r hr, hh.coupled.keyed key r hr⟩)
    exact ⟨fun key r hr => (hkey key r hr).1, fun key r hr => (hkey key r hr).2⟩
  · intro key
    unfold updatePackage
    rw [lookup_updatePublished]
    split
    · cases h.store.lookup key with
      | none => rfl
      | some r =>
        rw [Option.map_some, Option.map_some]
        split
        · rfl
        · rfl
    · rfl

/-- A row can be reserved only where nothing is published and nothing was deleted. -/
theorem tracked_reserve {h : History} (hh : Tracked h) {now : DateTime} {pkg : PublishedPackage}
    {reserved : Store} (hpublish : publish env now pkg h.store = .ok reserved) :
    Tracked { h with store := reserved } ∧ keyOf env pkg ∉ h.deleted ∧
      reserved.lookup (keyOf env pkg) = some ⟨pkg, .pending, now, none⟩ := by
  obtain ⟨hstore, hfree⟩ := publish_eq_ok env hpublish
  have hfresh : keyOf env pkg ∉ h.deleted := by
    intro hkey
    obtain ⟨r, hr, hdeleted⟩ := hh.spent _ hkey
    have hmark := (hh.coupled.coupled _ r hr).mpr hdeleted
    rw [(hfree r hr).1] at hmark
    cases hmark
  have hlookup : reserved.lookup (keyOf env pkg) = some ⟨pkg, .pending, now, none⟩ := by
    rw [hstore]
    exact AList.lookup_insert h.store
  have hother : ∀ key, key ≠ keyOf env pkg → reserved.lookup key = h.store.lookup key := by
    intro key hne
    rw [hstore, lookup_insert_eq]
    exact if_neg hne
  refine ⟨⟨?_, ?_, ?_⟩, hfresh, hlookup⟩
  · have hstep : step env h.store (.publish now pkg) = reserved := by
      rw [step, hpublish]
    rw [← hstep]
    exact step_coupled env h.store (.publish now pkg) hh.coupled trivial
  · intro key
    rw [← hh.listed key]
    by_cases hkey : key = keyOf env pkg
    · subst hkey
      constructor
      · rintro ⟨r, hr, hpublished⟩
        obtain rfl := Option.some.inj (hlookup.symm.trans hr)
        cases hpublished
      · rintro ⟨r, hr, hpublished⟩
        exact absurd hpublished (hfree r hr).2
    · unfold Listed
      rw [hother key hkey]
  · intro key hkey
    rw [hother key (fun heq => hfresh (heq ▸ hkey))]
    exact hh.spent key hkey

theorem tracked_commit {h : History} (hh : Tracked h) {pkg : PublishedPackage} {r : Record}
    (hr : h.store.lookup (keyOf env pkg) = some r) (hpending : r.status = .pending)
    (hfresh : keyOf env pkg ∉ h.deleted) :
    Tracked { h with
      store := commitPublish env pkg.registry pkg.name pkg.version h.store
      published := keyOf env pkg :: h.published } := by
  have hlookup : ∀ key, (commitPublish env pkg.registry pkg.name pkg.version h.store).lookup key =
      if key = keyOf env pkg then some { r with status := .published } else h.store.lookup key := by
    intro key
    unfold commitPublish
    rw [lookup_modify,
      show recordKey env pkg.registry pkg.name pkg.version = keyOf env pkg from rfl]
    split
    · rw [hr]
      rfl
    · rfl
  refine ⟨?_, ?_, ?_⟩
  · refine step_coupled env h.store (.commitPublish pkg.registry pkg.name pkg.version) hh.coupled ?_
    intro r' hr'
    obtain rfl := Option.some.inj (hr.symm.trans hr')
    rw [hpending]
    decide
  · intro key
    unfold Listed
    rw [hlookup key]
    split
    · rename_i hkey
      rw [hkey]
      exact iff_of_true ⟨_, rfl, rfl⟩ ⟨List.mem_cons_self, hfresh⟩
    · rename_i hkey
      rw [List.mem_cons, or_iff_right hkey]
      exact hh.listed key
  · intro key hkey
    rw [hlookup key, if_neg (fun heq : key = keyOf env pkg => hfresh (heq ▸ hkey))]
    exact hh.spent key hkey

theorem tracked_rollback {h : History} (hh : Tracked h) {pkg : PublishedPackage} {r : Record}
    (hr : h.store.lookup (keyOf env pkg) = some r) (hpending : r.status = .pending)
    (hfresh : keyOf env pkg ∉ h.deleted) :
    Tracked { h with store := removeVersion env pkg.registry pkg.name pkg.version h.store } := by
  have hlookup : ∀ key, (removeVersion env pkg.registry pkg.name pkg.version h.store).lookup key =
      if key = keyOf env pkg then none else h.store.lookup key := by
    intro key
    rw [lookup_removeVersion,
      show recordKey env pkg.registry pkg.name pkg.version = keyOf env pkg from rfl]
    split
    · rename_i hkey
      rw [hkey, hr, Option.filter_some, hpending]
      rfl
    · rfl
  refine ⟨?_, ?_, ?_⟩
  · exact step_coupled env h.store (.removeVersion pkg.registry pkg.name pkg.version) hh.coupled
      trivial
  · intro key
    rw [← hh.listed key]
    unfold Listed
    rw [hlookup key]
    split
    · rename_i hkey
      rw [hkey, hr]
      constructor
      · rintro ⟨r', hr', -⟩
        cases hr'
      · rintro ⟨r', hr', hpublished⟩
        obtain rfl := Option.some.inj hr'
        rw [hpending] at hpublished
        cases hpublished
    · rfl
  · intro key hkey
    rw [hlookup key, if_neg (fun heq : key = keyOf env pkg => hfresh (heq ▸ hkey))]
    exact hh.spent key hkey

theorem tracked_delete {h : History} (hh : Tracked h) (now : DateTime)
    (registry name version : String) (deletedBy : Option String) :
    Tracked (deleteEvent env now registry name version deletedBy h) := by
  unfold deleteEvent
  cases hpub : published? env registry name version h.store with
  | none =>
    have hnothing : tombstoneVersion env now registry name version deletedBy h.store =
        (false, h.store) := by
      rw [tombstoneVersion, hpub]
    rw [hnothing]
    exact hh
  | some r =>
    have hresult : (tombstoneVersion env now registry name version deletedBy h.store).1 = true := by
      rw [tombstoneVersion, hpub]
    obtain ⟨hr, hstatus⟩ := Option.filter_eq_some_iff.mp hpub
    have hpublished : r.status = .published := of_decide_eq_true hstatus
    have hlookup := lookup_tombstoneVersion env now registry name version deletedBy h.store
    dsimp only
    rw [if_pos hresult]
    refine ⟨?_, ?_, ?_⟩
    · exact step_coupled env h.store (.tombstoneVersion now registry name version deletedBy)
        hh.coupled trivial
    · intro key
      unfold Listed
      dsimp only
      rw [hlookup key]
      split
      · rename_i hkey
        subst hkey
        rw [hr, Option.map_some, if_pos hpublished]
        refine iff_of_false ?_ (fun hboth => hboth.2 List.mem_cons_self)
        rintro ⟨r', hr', hpublished'⟩
        obtain rfl := Option.some.inj hr'
        cases hpublished'
      · rename_i hkey
        rw [List.mem_cons, or_iff_right hkey]
        exact hh.listed key
    · intro key hkey
      dsimp only
      rw [hlookup key]
      split
      · rename_i heq
        subst heq
        rw [hr, Option.map_some, if_pos hpublished]
        exact ⟨_, rfl, rfl⟩
      · rename_i hne
        exact hh.spent key ((List.mem_cons.mp hkey).resolve_left hne)

theorem tracked_step (h : History) (e : Event) (hh : Tracked h) :
    Tracked (eventStep env lib h e) := by
  cases e with
  | publish now pkg monotonic outcome =>
    rw [eventStep, publishEvent]
    cases henforce : enforcePublishPolicy env lib monotonic (requestOf pkg) h.store with
    | error e => exact hh
    | ok u =>
      cases hpublish : publish env now pkg h.store with
      | error e => exact hh
      | ok reserved =>
        obtain ⟨hreserved, hfresh, hlookup⟩ := tracked_reserve hh hpublish
        cases outcome with
        | committed => exact tracked_commit hreserved hlookup rfl hfresh
        | rolledBack => exact tracked_rollback hreserved hlookup rfl hfresh
        | abandoned => exact hreserved
  | yank registry name version => exact tracked_updatePackage hh _ _ _ _ (fun p => rfl)
  | unyank registry name version => exact tracked_updatePackage hh _ _ _ _ (fun p => rfl)
  | unlist registry name version => exact tracked_updatePackage hh _ _ _ _ (fun p => rfl)
  | relist registry name version => exact tracked_updatePackage hh _ _ _ _ (fun p => rfl)
  | delete now registry name version deletedBy =>
    exact tracked_delete hh now registry name version deletedBy

theorem tracked_run (events : List Event) :
    Tracked (run (eventStep env lib) History.empty events) :=
  run_keeps_of_forall (fun _ => True) Tracked (fun h e hh _ => tracked_step h e hh) _ events
    tracked_empty (fun _ _ => trivial)

theorem mem_versions {store : Store} (hcoupled : Coupled store) (registry name version : String) :
    version ∈ (getVersions env registry name store).map (·.version) ↔
      Listed store (recordKey env registry name version) := by
  rw [List.mem_map]
  constructor
  · rintro ⟨p, hp, rfl⟩
    obtain ⟨listed, r, hr, hpublished, rfl⟩ := (mem_getVersions env store registry name p).mp hp
    have hversion : r.pkg.version = listed := hcoupled.keyed _ r hr
    rw [hversion]
    exact ⟨r, hr, hpublished⟩
  · rintro ⟨r, hr, hpublished⟩
    exact ⟨r.pkg, (mem_getVersions env store registry name r.pkg).mpr
      ⟨version, r, hr, hpublished, rfl⟩, hcoupled.keyed _ r hr⟩

/-- What the check lets through is listed already or comes before everything listed. -/
theorem checkMonotonic_ok [Std.TransCmp lib.comparePre] [Std.TransCmp lib.compareBuild]
    {req : PublishPolicyRequest} {store : Store}
    (h : checkMonotonic env lib true req store = .ok ()) :
    req.version ∈ (getVersions env req.registry req.name store).map (·.version) ∨
      ∀ v ∈ (getVersions env req.registry req.name store).map (·.version),
        newestFirst lib req.version v = .lt := by
  unfold checkMonotonic at h
  rw [if_neg (by decide)] at h
  dsimp only at h
  split at h
  · rename_i hany
    left
    obtain ⟨p, hp, hversion⟩ := List.any_eq_true.mp hany
    exact List.mem_map.mpr ⟨p, hp, of_decide_eq_true hversion⟩
  · right
    split at h
    · rename_i hnone
      intro v hv
      cases hlist : (getVersions env req.registry req.name store).map (·.version) with
      | nil =>
        rw [hlist] at hv
        cases hv
      | cons w ws =>
        rw [hlist] at hnone
        cases hnone
    · rename_i newest hnewest
      split at h
      · rename_i hlt
        exact lt_of_lt_minBy hnewest hlt
      · cases h

end Histories

section Results

def leftPadAt (version : String) : PublishedPackage := { leftPad with version := version }

/-- One version, published under the check. -/
def oneRelease (version : String) : List Event := [.publish 0 (leftPadAt version) true .committed]

def runSample (events : List Event) : History :=
  run (eventStep asciiEnv sampleSemver) History.empty events

instance transCmp_sampleComparePre : Std.TransCmp sampleSemver.comparePre :=
  transCmp_then (transCmp_pullback String.isEmpty) (inferInstanceAs (Std.TransCmp compare))

instance transCmp_sampleCompareBuild : Std.TransCmp sampleSemver.compareBuild where
  eq_swap := by
    intro a b
    rfl
  isLE_trans := by
    intro a b c _ _
    rfl

/-- What the check accepts is listed already, or comes before every version that was published
and is not deleted. -/
theorem accepted_is_listed_or_newest (env : TextEnv) {Pre Build : Type*} (lib : Semver Pre Build)
    [Std.TransCmp lib.comparePre] [Std.TransCmp lib.compareBuild] (events : List Event)
    (registry name version : String)
    (h : checkMonotonic env lib true ⟨registry, name, version⟩
      (run (eventStep env lib) History.empty events).store = .ok ()) :
    (recordKey env registry name version ∈
        (run (eventStep env lib) History.empty events).published ∧
      recordKey env registry name version ∉
        (run (eventStep env lib) History.empty events).deleted) ∨
    ∀ v, recordKey env registry name v ∈ (run (eventStep env lib) History.empty events).published →
      recordKey env registry name v ∉ (run (eventStep env lib) History.empty events).deleted →
        newestFirst lib version v = .lt := by
  have htracked : Tracked (run (eventStep env lib) History.empty events) := tracked_run events
  rcases checkMonotonic_ok h with hlisted | hnewest
  · left
    rw [← htracked.listed]
    exact (mem_versions htracked.coupled registry name version).mp hlisted
  · right
    intro v hpublished hdeleted
    refine hnewest v ((mem_versions htracked.coupled registry name v).mpr ?_)
    exact (htracked.listed _).mpr ⟨hpublished, hdeleted⟩

/-- One version is yanked, the next unlisted, and the newest deleted. -/
def mixedReleases : List Event :=
  oneRelease "1.0.0" ++ [.yank "npm" "left-pad" "1.0.0"] ++ oneRelease "1.5.0" ++
    [.unlist "npm" "left-pad" "1.5.0"] ++ oneRelease "2.0.0" ++
    [.delete 5 "npm" "left-pad" "2.0.0" none]

theorem accepted_is_listed_or_newest_sample :
    (newestFirst sampleSemver "1.9.0" "1.0.0" = .lt ∧
      newestFirst sampleSemver "1.9.0" "1.5.0" = .lt) ∧
    recordKey asciiEnv "npm" "left-pad" "1.5.0" ∈ (runSample mixedReleases).published ∧
    recordKey asciiEnv "npm" "left-pad" "2.0.0" ∈ (runSample mixedReleases).deleted := by
  have hnewest := (accepted_is_listed_or_newest asciiEnv sampleSemver mixedReleases "npm"
    "left-pad" "1.9.0" (by decide)).resolve_left (by decide)
  have hlisted := (accepted_is_listed_or_newest asciiEnv sampleSemver mixedReleases "npm"
    "left-pad" "1.5.0" (by decide)).resolve_right fun h =>
      absurd (h "1.5.0" (by decide) (by decide)) (by decide)
  exact ⟨⟨hnewest "1.0.0" (by decide) (by decide), hnewest "1.5.0" (by decide) (by decide)⟩,
    hlisted.1, by decide⟩

/-- A listed version passes and is not newer than itself. A deleted version is not compared:
what is older than it passes. -/
theorem accepted_need_not_be_newest :
    (¬ ∀ events registry name version,
      checkMonotonic asciiEnv sampleSemver true ⟨registry, name, version⟩ (runSample events).store =
        .ok () →
      ∀ v, recordKey asciiEnv registry name v ∈ (runSample events).published →
        newestFirst sampleSemver version v = .lt) ∧
    (checkMonotonic asciiEnv sampleSemver true ⟨"npm", "left-pad", "1.0.0"⟩
        (runSample (oneRelease "1.0.0")).store = .ok () ∧
      newestFirst sampleSemver "1.0.0" "1.0.0" = .eq) ∧
    (let events := oneRelease "2.0.0" ++ [Event.delete 5 "npm" "left-pad" "2.0.0" none]
     checkMonotonic asciiEnv sampleSemver true ⟨"npm", "left-pad", "1.9.9"⟩
        (runSample events).store = .ok () ∧
      recordKey asciiEnv "npm" "left-pad" "2.0.0" ∈ (runSample events).published ∧
      newestFirst sampleSemver "1.9.9" "2.0.0" = .gt) := by
  refine ⟨fun h => ?_, ⟨by decide, by decide⟩, by decide, by decide, by decide⟩
  have hnewer := h (oneRelease "1.0.0") "npm" "left-pad" "1.0.0" (by decide) "1.0.0" (by decide)
  revert hnewer
  decide

end Results

end BatleHub.MonotonicPublishing
