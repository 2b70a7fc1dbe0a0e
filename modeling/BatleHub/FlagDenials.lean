import BatleHub.Containment
import BatleHub.Lib.KeyedWrites
import Mathlib.Data.List.Sort

/-!
A hard block pushed for a package of one registry, over the two stores of verdicts
(`services/flags.rs`, `in_memory/security.rs`, `db/security.rs`). A flag on one version
reads the verdict it denies; a flag on every version reads the package's listing, which in
PostgreSQL comes without the findings, and what is written back replaces them.
-/
namespace BatleHub.FlagDenials

open LocalPackages Verdicts VerdictEvaluation ScanRecords Containment Lib.AssocMap Lib.KeyedWrites

section Stores

/-- The rows of the in-memory store, each under the key of its coordinate. -/
structure InMemoryVerdicts where
  rows : Assoc String Verdict
  filed : ∀ key v, rows.lookup key = some v → v.package.cacheKey = key

namespace InMemoryVerdicts

def upsert (r : InMemoryVerdicts) (v : Verdict) : InMemoryVerdicts where
  rows := r.rows.insert v.package.cacheKey v
  filed := by
    intro key w h
    rw [lookup_insert_eq] at h
    split at h
    · rename_i hkey
      obtain rfl := Option.some.inj h
      exact hkey.symm
    · exact r.filed key w h

def get (r : InMemoryVerdicts) (id : PackageId) : Option Verdict := r.rows.lookup id.cacheKey

def listForPackage (r : InMemoryVerdicts) (registry package : String) : List Verdict :=
  (r.rows.entries.map (·.2)).filter fun v =>
    decide (v.package.registry = registry) && decide (v.package.name = package)

end InMemoryVerdicts

/-- Registry, package name and version. -/
abbrev Coordinate := String × String × String

def coordinateOf (id : PackageId) : Coordinate := (id.registry, id.name, id.version)

/-- A row of `artifact_verdicts`. -/
structure VerdictRow where
  state : VerdictState
  reasonCodes : List ReasonCode
  policyRef : String
  availableAt : Option DateTime
  evaluatedAt : DateTime
  lastScannedAt : Option DateTime
  scannersDone : List String

def VerdictRow.of (v : Verdict) : VerdictRow :=
  ⟨v.state, v.reasonCodes, v.policyRef, v.availableAt, v.evaluatedAt, v.lastScannedAt,
    v.scannersDone⟩

def rowToVerdict (c : Coordinate) (row : VerdictRow) (findings : List Finding) : Verdict where
  package := PackageId.new c.1 c.2.1 c.2.2
  state := row.state
  reasonCodes := row.reasonCodes
  findings := findings
  policyRef := row.policyRef
  availableAt := row.availableAt
  evaluatedAt := row.evaluatedAt
  lastScannedAt := row.lastScannedAt
  scannersDone := row.scannersDone

/-- `artifact_verdicts` and `artifact_findings`. -/
structure PgVerdicts where
  verdicts : Assoc Coordinate VerdictRow
  findings : List (Coordinate × Finding)

namespace PgVerdicts

/-- One transaction: the row, and its findings replaced as a set. -/
def upsert (r : PgVerdicts) (v : Verdict) : PgVerdicts where
  verdicts := r.verdicts.insert (coordinateOf v.package) (VerdictRow.of v)
  findings := (r.findings.filter fun f => decide (f.1 ≠ coordinateOf v.package)) ++
    v.findings.map fun f => (coordinateOf v.package, f)

/-- The findings of one coordinate were created together, so the scanner orders them. -/
def findingsFor (r : PgVerdicts) (c : Coordinate) : List Finding :=
  ((r.findings.filter fun f => decide (f.1 = c)).map (·.2)).insertionSort fun f g =>
    f.scanner ≤ g.scanner

def read (r : PgVerdicts) (c : Coordinate) : Option Verdict :=
  (r.verdicts.lookup c).map fun row => rowToVerdict c row (r.findingsFor c)

def get (r : PgVerdicts) (id : PackageId) : Option Verdict := r.read (coordinateOf id)

/-- The findings are not loaded. -/
def listForPackage (r : PgVerdicts) (registry package : String) : List Verdict :=
  (r.verdicts.entries.filter fun e =>
    decide (e.1.1 = registry) && decide (e.1.2.1 = package)).map fun e => rowToVerdict e.1 e.2 []

end PgVerdicts

/-- A `VerdictRepository`. -/
inductive Repository where
  | inMemory (rows : InMemoryVerdicts)
  | postgres (rows : PgVerdicts)

namespace Repository

def upsert : Repository → Verdict → Repository
  | inMemory r, v => .inMemory (r.upsert v)
  | postgres r, v => .postgres (r.upsert v)

def get : Repository → PackageId → Option Verdict
  | inMemory r, id => r.get id
  | postgres r, id => r.get id

def listForPackage : Repository → String → String → List Verdict
  | inMemory r, registry, package => r.listForPackage registry package
  | postgres r, registry, package => r.listForPackage registry package

/-- The verdict that is stored about a coordinate. -/
def stored (r : Repository) (id : PackageId) : Option Verdict :=
  (r.get id).filter fun v => decide (v.package = id)

end Repository

end Stores

section Flags

/-- A flag of one registry's package. -/
structure RegistryFlag extends PackageFlag where
  registry : String
  packageName : String

/-- A hard block as a push accepts it: neither revoked nor over. -/
structure HardBlock (now : DateTime) extends RegistryFlag where
  hard : effect = .hardBlock
  live : toPackageFlag.isLive now = true

/-- The version a flag on one version names. -/
def RegistryFlag.coordinate (flag : RegistryFlag) : PackageId :=
  PackageId.new flag.registry flag.packageName flag.version

variable (security : List String) (flag : RegistryFlag) (now : DateTime)

/-- The verdicts of a registry with a security profile that the flag covers. -/
def coveredVerdicts (repo : Repository) : List Verdict :=
  if flag.registry ∉ security then []
  else if flag.version = anyVersion then repo.listForPackage flag.registry flag.packageName
  else (repo.get flag.coordinate).toList

def denyCovered (repo : Repository) : Repository :=
  (coveredVerdicts security flag repo).foldl
    (fun repo v => repo.upsert (denyOne flag.toPackageFlag v now)) repo

/-- `apply`, up to the rescans it queues. -/
def applyFlag (repo : Repository) : Repository :=
  if flag.effect = .hardBlock ∧ flag.isLive now = true then denyCovered security flag now repo
  else repo

/-- The flag covers the coordinate, on a registry with a security profile. -/
def Covers (id : PackageId) : Prop :=
  flag.registry ∈ security ∧ id.registry = flag.registry ∧ id.name = flag.packageName ∧
    (flag.version = anyVersion ∨ id = flag.coordinate)

/-- A finding that a denial by the flag leaves. -/
def leaves (f : Finding) : Bool :=
  decide (f.scanner ≠ flagsScanner) || decide (f.reference ≠ some flag.reference)

/-- The covered verdicts are denied and have the flag's finding in place of its former one;
the others are as they were. -/
structure DeniesOwn (before after : Repository) : Prop where
  covered : ∀ id v, before.stored id = some v → Covers security flag id →
    ∃ w, after.stored id = some w ∧ w.state = .denied ∧
      w.findings.Perm (v.findings.filter (leaves flag) ++ [flag.asFinding])
  others : ∀ id, ¬ Covers security flag id → after.stored id = before.stored id

/-- Nothing is lost by it: in memory, a flag on one version finds no other coordinate's
verdict under its key, or one it changes nothing of; in PostgreSQL, a flag on every version
covers no verdict with another finding. -/
def LosesNothing : Repository → Prop
  | .inMemory r => flag.registry ∈ security → flag.version ≠ anyVersion →
    ∀ v, r.get flag.coordinate = some v → v.package ≠ flag.coordinate →
      denyOne flag.toPackageFlag v now = v
  | .postgres r => flag.registry ∈ security → flag.version = anyVersion →
    ∀ id v, (Repository.postgres r).stored id = some v → Covers security flag id →
      v.findings.filter (leaves flag) = []

theorem denyOne_findings (v : Verdict) : (denyOne flag.toPackageFlag v now).findings =
    v.findings.filter (leaves flag) ++ [flag.asFinding] := rfl

theorem denyOne_state (v : Verdict) : (denyOne flag.toPackageFlag v now).state = .denied := rfl

end Flags

section InMemory

/-- The in-memory store, by the texts it files its rows under. -/
def memoryStore : KeyedStore InMemoryVerdicts String Verdict Verdict where
  key v := v.package.cacheKey
  kept v := v
  read r key := r.rows.lookup key
  write := InMemoryVerdicts.upsert
  read_write r v key := lookup_insert_eq r.rows v.package.cacheKey key v

theorem foldl_inMemory (f : Verdict → Verdict) (l : List Verdict) (r : InMemoryVerdicts) :
    l.foldl (fun repo v => repo.upsert (f v)) (Repository.inMemory r) =
      .inMemory ((l.map f).foldl InMemoryVerdicts.upsert r) := by
  induction l generalizing r with
  | nil => rfl
  | cons v rest ih => exact ih (r.upsert (f v))

theorem stored_inMemory_iff {r : InMemoryVerdicts} {id : PackageId} {v : Verdict} :
    (Repository.inMemory r).stored id = some v ↔
      r.rows.lookup id.cacheKey = some v ∧ v.package = id := by
  simp [Repository.stored, Repository.get, InMemoryVerdicts.get, Option.filter_eq_some_iff]

theorem stored_of_collides {r : InMemoryVerdicts} {id : PackageId} {v : Verdict}
    (hget : r.get id = some v) (hother : v.package ≠ id) :
    (Repository.inMemory r).stored id = none := by
  rw [Option.eq_none_iff_forall_ne_some]
  intro w hw
  obtain ⟨hread, hid⟩ := stored_inMemory_iff.mp hw
  obtain rfl := Option.some.inj (hget.symm.trans hread)
  exact hother hid

theorem mem_listForPackage_inMemory {r : InMemoryVerdicts} {registry package : String}
    {v : Verdict} : v ∈ r.listForPackage registry package ↔
      r.rows.lookup v.package.cacheKey = some v ∧ v.package.registry = registry ∧
        v.package.name = package := by
  unfold InMemoryVerdicts.listForPackage
  rw [List.mem_filter, Bool.and_eq_true, decide_eq_true_iff, decide_eq_true_iff]
  refine and_congr_left fun _ => ?_
  rw [List.mem_map]
  constructor
  · rintro ⟨e, he, rfl⟩
    have hlookup := (lookup_eq_some_iff r.rows e.1 e.2).mpr he
    rw [r.filed e.1 e.2 hlookup]
    exact hlookup
  · intro h
    exact ⟨_, (lookup_eq_some_iff r.rows _ v).mp h, rfl⟩

theorem nodup_listForPackage_inMemory (r : InMemoryVerdicts) (registry package : String) :
    ((r.listForPackage registry package).map memoryStore.key).Nodup := by
  have hkeys : (r.rows.entries.map (·.2)).map memoryStore.key = r.rows.entries.keys := by
    rw [List.map_map]
    apply List.map_congr_left
    intro e he
    exact r.filed e.1 e.2 ((lookup_eq_some_iff r.rows e.1 e.2).mpr he)
  have hnodup : ((r.rows.entries.map (·.2)).map memoryStore.key).Nodup := hkeys ▸ r.rows.nodupKeys
  exact hnodup.sublist (List.filter_sublist.map _)

end InMemory

section Postgres

/-- What is read back of a verdict. -/
def pgKept (v : Verdict) : Verdict :=
  rowToVerdict (coordinateOf v.package) (VerdictRow.of v)
    (v.findings.insertionSort fun f g => f.scanner ≤ g.scanner)

theorem findingsFor_upsert (r : PgVerdicts) (v : Verdict) (c : Coordinate) :
    (r.upsert v).findingsFor c =
      if c = coordinateOf v.package then v.findings.insertionSort fun f g => f.scanner ≤ g.scanner
      else r.findingsFor c := by
  unfold PgVerdicts.findingsFor PgVerdicts.upsert
  dsimp only
  rw [List.filter_append, List.filter_filter, List.map_append, List.filter_map, List.map_map]
  split
  · rename_i hc
    subst hc
    simp [Function.comp_def]
  · rename_i hc
    have hold : r.findings.filter (fun f => decide (f.1 = c) &&
        decide (f.1 ≠ coordinateOf v.package)) = r.findings.filter fun f => decide (f.1 = c) := by
      apply List.filter_congr
      intro f _
      by_cases hf : f.1 = c
      · simp [hf, hc]
      · simp [hf]
    rw [hold]
    simp [Function.comp_def, Ne.symm hc]

/-- The PostgreSQL store, by coordinate. -/
def pgStore : KeyedStore PgVerdicts Coordinate Verdict Verdict where
  key v := coordinateOf v.package
  kept := pgKept
  read := PgVerdicts.read
  write := PgVerdicts.upsert
  read_write r v c := by
    unfold PgVerdicts.read
    rw [findingsFor_upsert]
    simp only [PgVerdicts.upsert, lookup_insert_eq]
    split
    · rename_i hc
      subst hc
      rfl
    · rfl

theorem foldl_postgres (f : Verdict → Verdict) (l : List Verdict) (r : PgVerdicts) :
    l.foldl (fun repo v => repo.upsert (f v)) (Repository.postgres r) =
      .postgres ((l.map f).foldl PgVerdicts.upsert r) := by
  induction l generalizing r with
  | nil => rfl
  | cons v rest ih => exact ih (r.upsert (f v))

theorem stored_postgres (r : PgVerdicts) (id : PackageId) :
    (Repository.postgres r).stored id =
      if id.artifact = none then r.read (coordinateOf id) else none := by
  unfold Repository.stored Repository.get PgVerdicts.get PgVerdicts.read
  dsimp only
  cases r.verdicts.lookup (coordinateOf id) with
  | none => simp
  | some row =>
    obtain ⟨registry, name, version, artifact⟩ := id
    simp [rowToVerdict, coordinateOf, PackageId.new, Option.filter_some, eq_comm]

theorem nodup_listForPackage_postgres (r : PgVerdicts) (registry package : String) :
    ((r.listForPackage registry package).map pgStore.key).Nodup := by
  unfold PgVerdicts.listForPackage
  rw [List.map_map]
  have hkeys : ((r.verdicts.entries.filter fun e => decide (e.1.1 = registry) &&
      decide (e.1.2.1 = package)).map (·.1)).Nodup :=
    List.Nodup.sublist (List.filter_sublist.map _) r.verdicts.nodupKeys
  exact hkeys

end Postgres

section Denials

variable {security : List String} {flag : RegistryFlag} {now : DateTime}

theorem mem_coveredVerdicts_inMemory {r : InMemoryVerdicts} {v : Verdict}
    (h : v ∈ coveredVerdicts security flag (.inMemory r)) :
    r.rows.lookup v.package.cacheKey = some v := by
  unfold coveredVerdicts at h
  split at h
  · cases h
  split at h
  · exact (mem_listForPackage_inMemory.mp h).1
  · have hget := Option.mem_toList.mp h
    rw [r.filed _ v hget]
    exact hget

theorem nodup_coveredVerdicts_inMemory (r : InMemoryVerdicts) :
    ((coveredVerdicts security flag (.inMemory r)).map memoryStore.key).Nodup := by
  unfold coveredVerdicts
  split
  · exact List.nodup_nil
  split
  · exact nodup_listForPackage_inMemory r flag.registry flag.packageName
  · cases (Repository.inMemory r).get flag.coordinate with
    | none => exact List.nodup_nil
    | some v => exact List.nodup_singleton _

theorem covered_mem_inMemory {r : InMemoryVerdicts} {id : PackageId} {v : Verdict}
    (hstored : (Repository.inMemory r).stored id = some v) (hcovers : Covers security flag id) :
    v ∈ coveredVerdicts security flag (.inMemory r) := by
  obtain ⟨hread, rfl⟩ := stored_inMemory_iff.mp hstored
  obtain ⟨hsecurity, hregistry, hname, hversion⟩ := hcovers
  unfold coveredVerdicts
  rw [if_neg (not_not_intro hsecurity)]
  split
  · exact mem_listForPackage_inMemory.mpr ⟨hread, hregistry, hname⟩
  · rename_i hexact
    rw [Option.mem_toList, ← hversion.resolve_left hexact]
    exact hread

/-- A read verdict that the flag does not cover came from under another's key. -/
theorem covers_or_collides {r : InMemoryVerdicts} {v : Verdict}
    (h : v ∈ coveredVerdicts security flag (.inMemory r)) :
    Covers security flag v.package ∨
      flag.registry ∈ security ∧ flag.version ≠ anyVersion ∧
        r.get flag.coordinate = some v ∧ v.package ≠ flag.coordinate := by
  unfold coveredVerdicts at h
  split at h
  · cases h
  rename_i hsecurity
  rw [not_not] at hsecurity
  split at h
  · rename_i hany
    obtain ⟨-, hregistry, hname⟩ := mem_listForPackage_inMemory.mp h
    exact .inl ⟨hsecurity, hregistry, hname, .inl hany⟩
  · rename_i hexact
    by_cases hown : v.package = flag.coordinate
    · left
      rw [hown]
      exact ⟨hsecurity, rfl, rfl, .inr rfl⟩
    · exact .inr ⟨hsecurity, hexact, Option.mem_toList.mp h, hown⟩

theorem denyCovered_inMemory (r : InMemoryVerdicts) :
    denyCovered security flag now (.inMemory r) =
      .inMemory (((coveredVerdicts security flag (.inMemory r)).map fun v =>
        denyOne flag.toPackageFlag v now).foldl InMemoryVerdicts.upsert r) :=
  foldl_inMemory _ _ r

theorem stored_denied_inMemory {r : InMemoryVerdicts} {v : Verdict}
    (h : v ∈ coveredVerdicts security flag (.inMemory r)) :
    (denyCovered security flag now (.inMemory r)).stored v.package =
      some (denyOne flag.toPackageFlag v now) := by
  rw [denyCovered_inMemory, stored_inMemory_iff]
  exact ⟨memoryStore.read_foldl_map_of_mem (f := fun v => denyOne flag.toPackageFlag v now)
    (fun v => rfl) (nodup_coveredVerdicts_inMemory r) h r, rfl⟩

/-- In memory a verdict is changed only where the flag read one under its key. -/
theorem stored_kept_inMemory {r : InMemoryVerdicts} {id : PackageId}
    (h : ∀ v ∈ coveredVerdicts security flag (.inMemory r), v.package ≠ id) :
    (denyCovered security flag now (.inMemory r)).stored id =
      (Repository.inMemory r).stored id := by
  rw [denyCovered_inMemory]
  by_cases hkey : id.cacheKey ∈
      (coveredVerdicts security flag (.inMemory r)).map memoryStore.key
  · -- another coordinate's verdict is filed under the key, before and after
    obtain ⟨v, hv, hfiled⟩ := List.mem_map.mp hkey
    have hfiled' : v.package.cacheKey = id.cacheKey := hfiled
    have hbefore : r.get id = some v := by
      unfold InMemoryVerdicts.get
      rw [← hfiled']
      exact mem_coveredVerdicts_inMemory hv
    have hafter := memoryStore.read_foldl_map_of_mem
      (f := fun v => denyOne flag.toPackageFlag v now) (fun v => rfl)
      (nodup_coveredVerdicts_inMemory r) hv r
    rw [hfiled] at hafter
    have hget : InMemoryVerdicts.get (((coveredVerdicts security flag (.inMemory r)).map fun v =>
        denyOne flag.toPackageFlag v now).foldl InMemoryVerdicts.upsert r) id =
          some (denyOne flag.toPackageFlag v now) := hafter
    rw [stored_of_collides hbefore (h v hv), stored_of_collides hget (h v hv)]
  · have hsame := memoryStore.read_foldl_map_of_notMem
      (f := fun v => denyOne flag.toPackageFlag v now) (fun v => rfl) hkey r
    unfold Repository.stored Repository.get InMemoryVerdicts.get
    dsimp only
    rw [show (((coveredVerdicts security flag (.inMemory r)).map fun v =>
        denyOne flag.toPackageFlag v now).foldl InMemoryVerdicts.upsert r).rows.lookup id.cacheKey =
          r.rows.lookup id.cacheKey from hsame]

theorem deniesOwn_inMemory_iff (r : InMemoryVerdicts) :
    DeniesOwn security flag (.inMemory r) (denyCovered security flag now (.inMemory r)) ↔
      LosesNothing security flag now (.inMemory r) := by
  constructor
  · intro hdenies hsecurity hexact v hget hother
    have hmem : v ∈ coveredVerdicts security flag (.inMemory r) := by
      unfold coveredVerdicts
      rw [if_neg (not_not_intro hsecurity), if_neg hexact]
      exact Option.mem_toList.mpr hget
    have huncovered : ¬ Covers security flag v.package :=
      fun hcovers => hcovers.2.2.2.elim hexact hother
    have hkept := hdenies.others v.package huncovered
    rw [stored_denied_inMemory hmem, eq_comm, stored_inMemory_iff] at hkept
    have hread := mem_coveredVerdicts_inMemory hmem
    exact (Option.some.inj (hread.symm.trans hkept.1)).symm
  · intro hloses
    refine ⟨fun id v hstored hcovers => ?_, fun id huncovered => ?_⟩
    · have hmem := covered_mem_inMemory hstored hcovers
      obtain ⟨-, rfl⟩ := stored_inMemory_iff.mp hstored
      exact ⟨_, stored_denied_inMemory hmem, denyOne_state .., .of_eq (denyOne_findings ..)⟩
    · by_cases hread : ∃ v ∈ coveredVerdicts security flag (.inMemory r), v.package = id
      · obtain ⟨v, hv, rfl⟩ := hread
        obtain ⟨hsecurity, hexact, hget, hother⟩ :=
          (covers_or_collides hv).resolve_left huncovered
        rw [stored_denied_inMemory hv, hloses hsecurity hexact v hget hother]
        exact (stored_inMemory_iff.mpr ⟨mem_coveredVerdicts_inMemory hv, rfl⟩).symm
      · exact stored_kept_inMemory fun v hv hid => hread ⟨v, hv, hid⟩

theorem denyCovered_postgres (r : PgVerdicts) :
    denyCovered security flag now (.postgres r) =
      .postgres (((coveredVerdicts security flag (.postgres r)).map fun v =>
        denyOne flag.toPackageFlag v now).foldl PgVerdicts.upsert r) :=
  foldl_postgres _ _ r

theorem read_eq_some {r : PgVerdicts} {c : Coordinate} {v : Verdict} (h : r.read c = some v) :
    ∃ row, r.verdicts.lookup c = some row ∧ v = rowToVerdict c row (r.findingsFor c) := by
  unfold PgVerdicts.read at h
  obtain ⟨row, hrow, rfl⟩ := Option.map_eq_some_iff.mp h
  exact ⟨row, hrow, rfl⟩

theorem coordinateOf_injective {id other : PackageId} (hid : id.artifact = none)
    (hother : other.artifact = none) (h : coordinateOf id = coordinateOf other) : id = other := by
  obtain ⟨registry, name, version, artifact⟩ := id
  obtain ⟨registry', name', version', artifact'⟩ := other
  simp_all [coordinateOf]

theorem mem_coveredVerdicts_postgres {r : PgVerdicts} {v : Verdict}
    (h : v ∈ coveredVerdicts security flag (.postgres r)) :
    v.package.artifact = none ∧ Covers security flag v.package := by
  unfold coveredVerdicts at h
  split at h
  · cases h
  rename_i hsecurity
  rw [not_not] at hsecurity
  split at h
  · rename_i hany
    obtain ⟨e, he, rfl⟩ := List.mem_map.mp h
    have hnamed := (List.mem_filter.mp he).2
    rw [Bool.and_eq_true, decide_eq_true_iff, decide_eq_true_iff] at hnamed
    exact ⟨rfl, hsecurity, hnamed.1, hnamed.2, .inl hany⟩
  · obtain ⟨row, -, rfl⟩ := read_eq_some (Option.mem_toList.mp h)
    exact ⟨rfl, hsecurity, rfl, rfl, .inr rfl⟩

/-- What the flag reads of a covered verdict: all of it, or all but the findings. -/
theorem covered_mem_postgres {r : PgVerdicts} {id : PackageId} {v : Verdict}
    (hstored : (Repository.postgres r).stored id = some v) (hcovers : Covers security flag id) :
    ∃ u ∈ coveredVerdicts security flag (.postgres r), u.package = id ∧
      u.findings = if flag.version = anyVersion then [] else v.findings := by
  rw [stored_postgres] at hstored
  split at hstored
  · rename_i hartifact
    obtain ⟨hsecurity, hregistry, hname, hversion⟩ := hcovers
    obtain ⟨row, hrow, rfl⟩ := read_eq_some hstored
    have hid : PackageId.new id.registry id.name id.version = id := by
      obtain ⟨registry, name, version, artifact⟩ := id
      simp_all [PackageId.new]
    unfold coveredVerdicts
    rw [if_neg (not_not_intro hsecurity)]
    split
    · refine ⟨rowToVerdict (coordinateOf id) row [], List.mem_map.mpr ⟨⟨coordinateOf id, row⟩,
        List.mem_filter.mpr ⟨(lookup_eq_some_iff r.verdicts _ row).mp hrow, ?_⟩, rfl⟩, hid, rfl⟩
      simp [coordinateOf, hregistry, hname]
    · rename_i hexact
      refine ⟨_, Option.mem_toList.mpr ?_, hid, rfl⟩
      rw [← hversion.resolve_left hexact]
      exact hstored
  · cases hstored

theorem nodup_coveredVerdicts_postgres (r : PgVerdicts) :
    ((coveredVerdicts security flag (.postgres r)).map pgStore.key).Nodup := by
  unfold coveredVerdicts
  split
  · exact List.nodup_nil
  split
  · exact nodup_listForPackage_postgres r flag.registry flag.packageName
  · cases (Repository.postgres r).get flag.coordinate with
    | none => exact List.nodup_nil
    | some v => exact List.nodup_singleton _

theorem stored_denied_postgres {r : PgVerdicts} {u : Verdict}
    (h : u ∈ coveredVerdicts security flag (.postgres r)) :
    (denyCovered security flag now (.postgres r)).stored u.package =
      some (pgKept (denyOne flag.toPackageFlag u now)) := by
  rw [denyCovered_postgres, stored_postgres, if_pos (mem_coveredVerdicts_postgres h).1]
  exact pgStore.read_foldl_map_of_mem (f := fun v => denyOne flag.toPackageFlag v now)
    (fun v => rfl) (nodup_coveredVerdicts_postgres r) h r

theorem stored_kept_postgres {r : PgVerdicts} {id : PackageId}
    (h : ¬ Covers security flag id) :
    (denyCovered security flag now (.postgres r)).stored id =
      (Repository.postgres r).stored id := by
  rw [denyCovered_postgres, stored_postgres, stored_postgres]
  split
  · rename_i hartifact
    refine pgStore.read_foldl_map_of_notMem (f := fun v => denyOne flag.toPackageFlag v now)
      (fun v => rfl) (fun hkey => ?_) r
    obtain ⟨u, hu, hcoordinate⟩ := List.mem_map.mp hkey
    obtain ⟨hplain, hcovers⟩ := mem_coveredVerdicts_postgres hu
    exact h (coordinateOf_injective hplain hartifact hcoordinate ▸ hcovers)
  · rfl

theorem pgKept_denyOne_findings (u : Verdict) :
    (pgKept (denyOne flag.toPackageFlag u now)).findings.Perm
      (u.findings.filter (leaves flag) ++ [flag.asFinding]) := by
  rw [← denyOne_findings flag now u]
  exact List.perm_insertionSort _ _

theorem deniesOwn_postgres_iff (r : PgVerdicts) :
    DeniesOwn security flag (.postgres r) (denyCovered security flag now (.postgres r)) ↔
      LosesNothing security flag now (.postgres r) := by
  constructor
  · intro hdenies _ hany id v hstored hcovers
    obtain ⟨u, hu, rfl, hread⟩ := covered_mem_postgres hstored hcovers
    rw [if_pos hany] at hread
    obtain ⟨w, hw, -, hkept⟩ := hdenies.covered u.package v hstored hcovers
    obtain rfl := Option.some.inj ((stored_denied_postgres hu).symm.trans hw)
    -- only the flag's finding was written back
    have hlength := (hkept.symm.trans (pgKept_denyOne_findings u)).length_eq
    rw [hread, List.filter_nil, List.length_append, List.length_append] at hlength
    exact List.length_eq_zero_iff.mp (Nat.add_right_cancel hlength)
  · intro hloses
    refine ⟨fun id v hstored hcovers => ?_, fun id => stored_kept_postgres⟩
    obtain ⟨u, hu, rfl, hread⟩ := covered_mem_postgres hstored hcovers
    refine ⟨_, stored_denied_postgres hu, rfl, ?_⟩
    have hsame : u.findings.filter (leaves flag) = v.findings.filter (leaves flag) := by
      split at hread
      · rename_i hany
        rw [hread, hloses hcovers.1 hany u.package v hstored hcovers, List.filter_nil]
      · rw [hread]
    rw [← hsame]
    exact pgKept_denyOne_findings u

end Denials

/-- A pushed hard block denies what it covers and touches its own finding alone exactly when
it loses nothing. -/
theorem denies_own_iff (security : List String) (now : DateTime) (flag : HardBlock now)
    (repo : Repository) :
    DeniesOwn security flag.toRegistryFlag repo
        (applyFlag security flag.toRegistryFlag now repo) ↔
      LosesNothing security flag.toRegistryFlag now repo := by
  unfold applyFlag
  rw [if_pos ⟨flag.hard, flag.live⟩]
  cases repo with
  | inMemory r => exact deniesOwn_inMemory_iff r
  | postgres r => exact deniesOwn_postgres_iff r

section LostFindings

/-- A hard block on every version of `left-pad`. -/
def everyVersionBlock : HardBlock 0 where
  source := "soc"
  externalId := "MAL-1"
  version := anyVersion
  kind := .malware
  effect := .hardBlock
  severity := none
  summary := "malicious"
  url := none
  firstSeen := 0
  expiresAt := none
  revokedAt := none
  registry := "npm"
  packageName := "left-pad"
  hard := rfl
  live := rfl

def storedCve : Finding :=
  Finding.new "osv" .vulnerability .vulnerability .high "CVE-2024-1"

/-- One quarantined version with a vulnerability the `osv` scanner found. -/
def oneScanned : PgVerdicts where
  verdicts := ⟨[⟨("npm", "left-pad", "1.0.0"),
    ⟨.quarantined, [.vulnerability], "", none, 0, some 0, ["osv"]⟩⟩], by simp⟩
  findings := [(("npm", "left-pad", "1.0.0"), storedCve)]

/-- Over PostgreSQL a block on every version takes the scanners' findings off the verdict. -/
theorem a_block_on_every_version_drops_findings :
    ¬ DeniesOwn ["npm"] everyVersionBlock.toRegistryFlag (.postgres oneScanned)
      (applyFlag ["npm"] everyVersionBlock.toRegistryFlag 0 (.postgres oneScanned)) := by
  unfold applyFlag
  rw [if_pos ⟨everyVersionBlock.hard, everyVersionBlock.live⟩, deniesOwn_postgres_iff]
  intro hloses
  have hnone := hloses (List.mem_singleton.mpr rfl) rfl (PackageId.new "npm" "left-pad" "1.0.0")
    (rowToVerdict ("npm", "left-pad", "1.0.0")
      ⟨.quarantined, [.vulnerability], "", none, 0, some 0, ["osv"]⟩ [storedCve])
    (by rfl) ⟨List.mem_singleton.mpr rfl, rfl, rfl, .inl rfl⟩
  have hkept : storedCve ∈ [storedCve].filter (leaves everyVersionBlock.toRegistryFlag) := by
    rw [List.mem_filter]
    exact ⟨List.mem_singleton.mpr rfl, by decide⟩
  exact List.not_mem_nil (hnone ▸ hkept)

end LostFindings

end BatleHub.FlagDenials
