import BatleHub.RecordSteps
import BatleHub.Lib.Runs

/-!
Runs of the in-memory store. The deletion mark is meant to be there exactly when
the status says deleted. Every call keeps the coupling except a commit that finds a
deleted record, and over every run without one a spent coordinate stays spent.
-/
namespace BatleHub.TombstoneRuns

open LocalPackages InMemoryRegistry RecordSteps Lib.AssocMap Lib.Runs

/-- The deletion record is there exactly when the status says so, and every
record sits under its own version. -/
structure Coupled (store : Store) : Prop where
  coupled : ∀ key r, store.lookup key = some r → (r.deletion.isSome = true ↔ r.status = .deleted)
  keyed : ∀ key r, store.lookup key = some r → r.pkg.version = key.2

/-- The coordinate's record is a tombstone made at `at_`. -/
def SpentAt (store : Store) (key : String × String) (at_ : DateTime) : Prop :=
  ∃ r mark, store.lookup key = some r ∧ r.status = .deleted ∧ r.deletion = some mark ∧
    mark.deletedAt = at_

theorem coupled_empty : Coupled (∅ : Store) := by
  constructor <;> intro key r h <;> simp at h

theorem recordStep_coupled {version : String} {x y : Option Record}
    (h : RecordStep version x y)
    (hx : ∀ r, x = some r → (r.deletion.isSome = true ↔ r.status = .deleted) ∧
      r.pkg.version = version) :
    ∀ r, y = some r → (r.deletion.isSome = true ↔ r.status = .deleted) ∧
      r.pkg.version = version := by
  intro out hout
  cases h with
  | same => exact hx out hout
  | reserved _ pkg now hfree hversion =>
    obtain rfl := Option.some.inj hout
    exact ⟨by simp, hversion⟩
  | committed r hstatus =>
    obtain rfl := Option.some.inj hout
    obtain ⟨hcoupled, hversion⟩ := hx r rfl
    have hnone : r.deletion.isSome = false := by
      rw [← Bool.not_eq_true, hcoupled]
      exact hstatus
    exact ⟨by simp [hnone], hversion⟩
  | edited r pkg hstatus hversion =>
    obtain rfl := Option.some.inj hout
    obtain ⟨hcoupled, hkeyed⟩ := hx r rfl
    exact ⟨hcoupled, hversion.trans hkeyed⟩
  | removed r hstatus => simp at hout
  | deleted r mark hstatus =>
    obtain rfl := Option.some.inj hout
    exact ⟨by simp, (hx r rfl).2⟩
  | stripped r mark mark' pkg hmark hat hversion =>
    obtain rfl := Option.some.inj hout
    obtain ⟨hcoupled, hkeyed⟩ := hx r rfl
    refine ⟨?_, hversion.trans hkeyed⟩
    rw [← hcoupled, hmark]
    rfl

theorem recordStep_spent {version : String} {x y : Option Record} {at_ : DateTime}
    (h : RecordStep version x y)
    (hx : ∃ r mark, x = some r ∧ r.status = .deleted ∧ r.deletion = some mark ∧
      mark.deletedAt = at_) :
    ∃ r mark, y = some r ∧ r.status = .deleted ∧ r.deletion = some mark ∧
      mark.deletedAt = at_ := by
  obtain ⟨old, mark₀, hold, hdeleted, hdeletion, hat₀⟩ := hx
  cases h with
  | same => exact ⟨old, mark₀, hold, hdeleted, hdeletion, hat₀⟩
  | reserved _ pkg now hfree hversion =>
    rw [(hfree old hold).1] at hdeletion
    exact absurd hdeletion (by simp)
  | committed r hstatus =>
    obtain rfl := Option.some.inj hold
    exact absurd hdeleted hstatus
  | edited r pkg hstatus hversion =>
    obtain rfl := Option.some.inj hold
    rw [hstatus] at hdeleted
    exact absurd hdeleted (by decide)
  | removed r hstatus =>
    obtain rfl := Option.some.inj hold
    exact absurd hdeleted hstatus
  | deleted r mark hstatus =>
    obtain rfl := Option.some.inj hold
    rw [hstatus] at hdeleted
    exact absurd hdeleted (by decide)
  | stripped r mark mark' pkg hmark hat hversion =>
    obtain rfl := Option.some.inj hold
    obtain rfl := Option.some.inj (hmark.symm.trans hdeletion)
    exact ⟨_, mark', rfl, hdeleted, rfl, hat.trans hat₀⟩

section Runs
variable (env : TextEnv)

theorem step_coupled (store : Store) (op : Op) (h : Coupled store)
    (hlive : CommitsLive env store op) : Coupled (step env store op) := by
  have hkey := fun key => recordStep_coupled (step_record env store op hlive key)
    (fun r hr => ⟨h.coupled key r hr, h.keyed key r hr⟩)
  exact ⟨fun key r hr => (hkey key r hr).1, fun key r hr => (hkey key r hr).2⟩

theorem step_spent (store : Store) (op : Op) (key : String × String) (at_ : DateTime)
    (h : SpentAt store key at_) (hlive : CommitsLive env store op) :
    SpentAt (step env store op) key at_ :=
  recordStep_spent (step_record env store op hlive key) h

/-- A deletion that reports success leaves a tombstone made now. -/
theorem spent_of_tombstoneVersion (now : DateTime) (registry name version : String)
    (deletedBy : Option String) (store : Store)
    (h : (tombstoneVersion env now registry name version deletedBy store).1 = true) :
    SpentAt (step env store (.tombstoneVersion now registry name version deletedBy))
      (recordKey env registry name version) now := by
  simp only [step]
  unfold tombstoneVersion at h ⊢
  cases hpub : published? env registry name version store with
  | none => simp [hpub] at h
  | some r =>
    obtain ⟨hr, hstatus⟩ := Option.filter_eq_some_iff.mp hpub
    refine ⟨{ r with status := .deleted, deletion := some ⟨now, deletedBy, none⟩ }, _, ?_, rfl, rfl,
      rfl⟩
    dsimp only
    rw [lookup_updatePublished, if_pos rfl, hr, Option.map_some, if_pos (by simpa using hstatus)]

theorem findTombstone_of_spent (store : Store) (registry name version : String)
    (at_ : DateTime) (h : SpentAt store (recordKey env registry name version) at_) :
    ∃ ts, findTombstone env registry name version store = some ts ∧ ts.deletedAt = at_ := by
  obtain ⟨r, mark, hr, -, hmark, hat⟩ := h
  simp [findTombstone, hr, Record.asTombstone, hmark, hat]

theorem mem_getVersions (store : Store) (registry name : String) (p : PublishedPackage) :
    p ∈ getVersions env registry name store ↔ ∃ version r,
      store.lookup (recordKey env registry name version) = some r ∧ r.status = .published ∧
        r.pkg = p := by
  simp only [getVersions, List.mem_insertionSort, List.mem_map, List.mem_filter,
    Bool.and_eq_true, decide_eq_true_eq]
  constructor
  · intro hex
    obtain ⟨⟨⟨k, version⟩, r⟩, ⟨he, hk, hstatus⟩, rfl⟩ := hex
    obtain rfl : k = pkgKey env registry name := hk
    exact ⟨version, r, (lookup_eq_some_iff _ _ _).mpr he, hstatus, rfl⟩
  · intro hex
    obtain ⟨version, r, hr, hstatus, rfl⟩ := hex
    exact ⟨⟨_, r⟩, ⟨(lookup_eq_some_iff _ _ _).mp hr, rfl, hstatus⟩, rfl⟩

theorem not_listed_of_spent (store : Store) (hcoupled : Coupled store)
    (registry name version : String) (at_ : DateTime)
    (h : SpentAt store (recordKey env registry name version) at_) :
    ∀ p ∈ getVersions env registry name store, p.version ≠ version := by
  intro p hp heq
  obtain ⟨listed, r, hr, hpublished, rfl⟩ := (mem_getVersions env store registry name p).mp hp
  obtain ⟨spent, mark, hspent, hdeleted, -⟩ := h
  have hkey : listed = version := (hcoupled.keyed _ r hr).symm.trans heq
  subst hkey
  obtain rfl := Option.some.inj (hr.symm.trans hspent)
  rw [hpublished] at hdeleted
  exact absurd hdeleted (by decide)

/-- In every run without a commit on a deleted record, the deletion record and
the status stay coupled, and a coordinate once deleted answers with the same
deletion time and is never listed again. -/
theorem run_deleted_stays_deleted (ops : List Op)
    (hlive : Guarded (step env) (CommitsLive env) ∅ ops) :
    Coupled (run (step env) ∅ ops) ∧
      ∀ before after now registry name version deletedBy,
        ops = before ++ Op.tombstoneVersion now registry name version deletedBy :: after →
        (tombstoneVersion env now registry name version deletedBy
          (run (step env) ∅ before)).1 = true →
        (∃ ts, findTombstone env registry name version (run (step env) ∅ ops) = some ts ∧
          ts.deletedAt = now) ∧
        ∀ p ∈ getVersions env registry name (run (step env) ∅ ops), p.version ≠ version := by
  have hcoupled := run_keeps (CommitsLive env) Coupled (step_coupled env) ∅ ops coupled_empty hlive
  refine ⟨hcoupled, ?_⟩
  intro before after now registry name version deletedBy heq hdeleted
  subst heq
  have hspent : SpentAt (run (step env) ∅
      (before ++ Op.tombstoneVersion now registry name version deletedBy :: after))
      (recordKey env registry name version) now := by
    rw [run_append]
    have hrest := ((guarded_append _ _ _ _).mp hlive).2
    exact run_keeps (CommitsLive env) (fun s => SpentAt s _ now)
      (fun s e h hg => step_spent env s e _ now h hg) _ after
      (spent_of_tombstoneVersion env now registry name version deletedBy _ hdeleted) hrest.2
  exact ⟨findTombstone_of_spent env _ registry name version now hspent,
    not_listed_of_spent env _ hcoupled registry name version now hspent⟩

end Runs

def leftPad : PublishedPackage where
  registry := "npm"
  name := "left-pad"
  version := "1.0.0"
  checksum := "abc"
  yanked := false
  deprecated := false
  deprecationMessage := none
  unlisted := false
  indexMetadata := Json.emptyObject
  publishedAt := 0
  publishedBy := none
  signatureBytes := none
  signatureType := none
  visibility := .isPublic
  retentionKeep := false

/-- Publish, commit, delete. -/
def spentRun : List Op :=
  [.publish 0 leftPad, .commitPublish "npm" "left-pad" "1.0.0",
    .tombstoneVersion 5 "npm" "left-pad" "1.0.0" none]

theorem spentRun_stays_deleted :
    Coupled (run (step asciiEnv) ∅ spentRun) ∧
      (∃ ts, findTombstone asciiEnv "npm" "left-pad" "1.0.0" (run (step asciiEnv) ∅ spentRun) =
        some ts ∧ ts.deletedAt = 5) := by
  have hlive : Guarded (step asciiEnv) (CommitsLive asciiEnv) ∅ spentRun := by
    refine ⟨trivial, ?_, trivial, trivial⟩
    intro r hr
    obtain rfl := Option.some.inj (show some _ = some r from hr)
    decide
  obtain ⟨hcoupled, hspent⟩ := run_deleted_stays_deleted asciiEnv spentRun hlive
  exact ⟨hcoupled, (hspent [.publish 0 leftPad, .commitPublish "npm" "left-pad" "1.0.0"] [] 5
    "npm" "left-pad" "1.0.0" none rfl (by decide)).1⟩

/-- A commit that arrives after the delete brings the version back: the record
is published and carries a deletion mark. -/
theorem late_commit_revives :
    (tombstoneVersion asciiEnv 5 "npm" "left-pad" "1.0.0" none
        (run (step asciiEnv) ∅ (spentRun.take 2))).1 = true ∧
      (getVersions asciiEnv "npm" "left-pad" (run (step asciiEnv) ∅
        (spentRun ++ [.commitPublish "npm" "left-pad" "1.0.0"]))).map (·.version) = ["1.0.0"] ∧
      ¬ Coupled (run (step asciiEnv) ∅ (spentRun ++ [.commitPublish "npm" "left-pad" "1.0.0"])) := by
  refine ⟨by decide, by decide, ?_⟩
  intro hcoupled
  have hrecord := hcoupled.coupled (recordKey asciiEnv "npm" "left-pad" "1.0.0") _ rfl
  exact absurd (hrecord.mp rfl) (by decide)

end BatleHub.TombstoneRuns
