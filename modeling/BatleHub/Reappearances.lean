import BatleHub.UpstreamRuns

/-!
What a sweep clears and reports as reappeared. A version that was not asked about is
cleared where the sweep found another one missing, and a package's row takes the blocks of
all its held versions with it; the sweep has evidence for all it clears exactly where no
row stands in those places.
-/
namespace BatleHub.UpstreamAudit

open Lib AssocMap
open LocalPackages (DateTime)

section Rows

/-- A row carries the name and the version of its key. -/
def Named (rows : Rows) : Prop :=
  ∀ k row, rows.lookup k = some row → row.packageName = k.2.1 ∧ row.version = k.2.2

/-- The status rows of a store. -/
abbrev StatusRows := { rows : Rows // Named rows }

variable {policy : UpstreamAuditPolicy} {registry : String} {now : DateTime}

theorem named_missedRow (k : Key) (old : Option UpstreamStatus)
    (h : ∀ row ∈ old, row.packageName = k.2.1 ∧ row.version = k.2.2) :
    (missedRow policy now k old).packageName = k.2.1 ∧
      (missedRow policy now k old).version = k.2.2 := by
  have hcount : (countMiss k now old).packageName = k.2.1 ∧ (countMiss k now old).version = k.2.2 := by
    cases old with
    | none => exact ⟨rfl, rfl⟩
    | some row => exact h row rfl
  unfold missedRow
  dsimp only
  split_ifs <;> exact hcount

theorem named_clear {s : Sweeping} (h : Named s.1) (name : String) (version : Option String)
    (covered : List String) : Named (clear registry name version covered s).1 := by
  intro k row hrow
  rw [lookup_clear] at hrow
  split_ifs at hrow
  exact h k row hrow

theorem named_miss {s : Sweeping} (h : Named s.1) (name : String) (version : Option String)
    (covered : List String) : Named (miss policy registry now name version covered s).1 := by
  intro k row hrow
  rw [lookup_miss] at hrow
  split_ifs at hrow with hk
  · rw [hk, ← Option.some.inj hrow]
    exact named_missedRow _ _ fun row hrow => h _ row hrow
  · exact h k row hrow

theorem named_applyOne {s : Sweeping} (h : Named s.1) (p : Probed) :
    Named (applyOne policy registry now s p).1 := by
  unfold applyOne
  cases p.outcome with
  | inconclusive e => exact h
  | missingPackage => exact named_miss h _ _ _
  | present =>
    unfold present
    dsimp only
    refine List.foldlRecOn _ _ (motive := fun s : Sweeping => Named s.1) (named_clear h _ _ _) ?_
    intro s hs v _
    exact named_clear hs _ _ _
  | missingVersions missing =>
    unfold missingVersions
    dsimp only
    refine List.foldlRecOn _ _ (motive := fun s : Sweeping => Named s.1) (named_clear h _ _ _) ?_
    intro s hs v _
    split_ifs
    · exact named_miss hs _ _ _
    · exact named_clear hs _ _ _

/-- A sweep keeps the rows named. -/
theorem named_sweepRegistry (policy : UpstreamAuditPolicy) (pass : Pass) {rows : Rows}
    (h : Named rows) : Named (sweepRegistry policy pass rows).1 := by
  unfold sweepRegistry
  cases pass.client with
  | none => exact h
  | some client =>
    unfold apply
    dsimp only
    split_ifs
    · exact h
    · refine List.foldlRecOn _ _ (motive := fun s : Sweeping => Named s.1) h ?_
      intro s hs p _
      exact named_applyOne hs p

end Rows

section Reports
variable {policy : UpstreamAuditPolicy} {registry : String} {now : DateTime}

/-- The sweep reports that the row was cleared, with the versions it covers. -/
def Reported (s : Sweeping) (row : UpstreamStatus) (covered : List String) : Prop :=
  Transition.reappeared row covered ∈ s.2.transitions

theorem reported_clear (name : String) (version : Option String) (cover : List String)
    (s : Sweeping) (row : UpstreamStatus) (covered : List String) :
    Reported (clear registry name version cover s) row covered ↔
      Reported s row covered ∨ s.1.lookup (registry, name, version) = some row ∧ covered = cover := by
  unfold Reported clear clearRow
  cases hlookup : s.1.lookup (registry, name, version) with
  | none =>
    dsimp only
    simp only [reduceCtorEq, false_and, or_false]
  | some old =>
    dsimp only
    rw [List.mem_append, List.mem_singleton, Transition.reappeared.injEq, Option.some.injEq,
      eq_comm (a := row)]

theorem reported_miss (name : String) (version : Option String) (cover : List String)
    (s : Sweeping) (row : UpstreamStatus) (covered : List String) :
    Reported (miss policy registry now name version cover s) row covered ↔ Reported s row covered := by
  unfold Reported miss recordMiss
  dsimp only
  split_ifs
  · exact Iff.rfl
  · rw [confirm_insert]
    dsimp only
    rw [List.mem_append, List.mem_singleton]
    simp only [reduceCtorEq, or_false]
  · exact Iff.rfl

/-- A version's row is reported once: clearing another version leaves it to be reported. -/
theorem reported_after_clear {name w : String} {s : Sweeping} {row : UpstreamStatus}
    {covered : List String}
    (hw : ¬ (s.1.lookup (registry, name, some w) = some row ∧ covered = [w])) (v : String) :
    (clear registry name (some w) [w] s).1.lookup (registry, name, some v) = some row ∧
        covered = [v] ↔
      s.1.lookup (registry, name, some v) = some row ∧ covered = [v] := by
  rw [lookup_clear]
  split_ifs with hkey
  · simp only [Prod.mk.injEq, Option.some.injEq, true_and] at hkey
    subst hkey
    exact iff_of_false (by nofun) hw
  · exact Iff.rfl

theorem reported_foldl_clear (name : String) (vs : List String) (s : Sweeping)
    (row : UpstreamStatus) (covered : List String) :
    Reported (vs.foldl (fun s v => clear registry name (some v) [v] s) s) row covered ↔
      Reported s row covered ∨
        ∃ v ∈ vs, s.1.lookup (registry, name, some v) = some row ∧ covered = [v] := by
  induction vs generalizing s with
  | nil => simp
  | cons w rest ih =>
    rw [List.foldl_cons, ih, reported_clear, or_assoc]
    apply or_congr_right
    simp only [List.mem_cons, exists_eq_or_imp]
    by_cases hw : s.1.lookup (registry, name, some w) = some row ∧ covered = [w]
    · exact iff_of_true (Or.inl hw) (Or.inl hw)
    · simp only [reported_after_clear hw]

theorem reported_foldl_missing (name : String) (missing vs : List String) (s : Sweeping)
    (row : UpstreamStatus) (covered : List String) :
    Reported (vs.foldl (fun s v =>
        if v ∈ missing then miss policy registry now name (some v) [v] s
        else clear registry name (some v) [v] s) s) row covered ↔
      Reported s row covered ∨ ∃ v ∈ vs, v ∉ missing ∧
        s.1.lookup (registry, name, some v) = some row ∧ covered = [v] := by
  induction vs generalizing s with
  | nil => simp
  | cons w rest ih =>
    rw [List.foldl_cons, ih]
    simp only [List.mem_cons, exists_eq_or_imp]
    by_cases hmissing : w ∈ missing
    · rw [if_pos hmissing, reported_miss]
      simp only [hmissing, not_true_eq_false, false_and, false_or]
      apply or_congr_right
      apply exists_congr
      intro v
      apply and_congr_right
      intro _
      apply and_congr_right
      intro hv
      rw [lookup_miss, if_neg]
      intro hkey
      simp only [Prod.mk.injEq, Option.some.injEq, true_and] at hkey
      exact hv (hkey ▸ hmissing)
    · rw [if_neg hmissing, reported_clear, or_assoc]
      apply or_congr_right
      by_cases hw : s.1.lookup (registry, name, some w) = some row ∧ covered = [w]
      · exact iff_of_true (Or.inl hw) (Or.inl ⟨hmissing, hw⟩)
      · simp only [hmissing, not_false_eq_true, true_and, reported_after_clear hw]

/-- The versions whose rows a package's outcome clears. -/
def clears (p : Probed) : List String :=
  match p.outcome with
  | .present => p.versions.take MAX_VERSION_PROBES_PER_PACKAGE
  | .missingVersions missing => p.versions.filter fun v => decide (v ∉ missing)
  | _ => []

/-- The outcome says that the package is there. -/
def isThere (p : Probed) : Bool :=
  match p.outcome with
  | .present => true
  | .missingVersions _ => true
  | _ => false

/-- What one package's outcome reports, of the rows before it. -/
def ReportedBy (registry : String) (rows : Rows) (p : Probed) (row : UpstreamStatus)
    (covered : List String) : Prop :=
  isThere p = true ∧ rows.lookup (registry, p.name, none) = some row ∧ covered = p.versions ∨
    ∃ v ∈ clears p, rows.lookup (registry, p.name, some v) = some row ∧ covered = [v]

theorem reported_applyOne (s : Sweeping) (p : Probed) (row : UpstreamStatus)
    (covered : List String) :
    Reported (applyOne policy registry now s p) row covered ↔
      Reported s row covered ∨ ReportedBy registry s.1 p row covered := by
  have hkeys : ∀ v : String, ((registry, p.name, some v) : Key) ≠ (registry, p.name, none) := by
    simp
  unfold applyOne ReportedBy isThere clears
  cases p.outcome with
  | inconclusive e => simp
  | missingPackage =>
    dsimp only
    rw [reported_miss]
    simp
  | present =>
    unfold present
    dsimp only
    rw [reported_foldl_clear, reported_clear, or_assoc]
    simp only [lookup_clear, hkeys, if_false, true_and]
  | missingVersions missing =>
    unfold missingVersions
    dsimp only
    rw [reported_foldl_missing, reported_clear, or_assoc]
    simp only [lookup_clear, hkeys, if_false, true_and, List.mem_filter, decide_eq_true_eq, and_assoc]

theorem reported_foldl_applyOne (outcomes : List Probed)
    (hnodup : (outcomes.map Probed.name).Nodup) (s : Sweeping) (row : UpstreamStatus)
    (covered : List String) :
    Reported (outcomes.foldl (applyOne policy registry now) s) row covered ↔
      Reported s row covered ∨ ∃ p ∈ outcomes, ReportedBy registry s.1 p row covered := by
  induction outcomes generalizing s with
  | nil => simp
  | cons q rest ih =>
    rw [List.map_cons, List.nodup_cons] at hnodup
    rw [List.foldl_cons, ih hnodup.2, reported_applyOne, or_assoc]
    simp only [List.mem_cons, exists_eq_or_imp]
    apply or_congr_right
    apply or_congr_right
    apply exists_congr
    intro p
    apply and_congr_right
    intro hp
    have hother : ∀ version, (applyOne policy registry now s q).1.lookup (registry, p.name, version) =
        s.1.lookup (registry, p.name, version) := by
      intro version
      refine lookup_applyOne_other _ _ _ _ _ _ ?_
      intro version' hkey
      simp only [Prod.mk.injEq, true_and] at hkey
      exact hnodup.1 (List.mem_map.mpr ⟨p, hp, hkey.1⟩)
    unfold ReportedBy
    simp only [hother]

theorem transitions_tally (outcomes : List Probed) (applied : Applied) :
    (tally outcomes applied).2.transitions = applied.transitions := by
  unfold tally
  refine List.foldlRecOn outcomes _ (motive := fun acc : ℕ × Applied => acc.2.transitions = applied.transitions) rfl ?_
  intro acc hacc p _
  dsimp only
  cases p.outcome with
  | inconclusive e =>
    dsimp only
    split_ifs <;> exact hacc
  | _ =>
    dsimp only
    split_ifs <;> exact hacc

end Reports

section Cleared

/-- The outcome clears the package's row, or a version's. -/
def Cleared (p : Probed) : Option String → Prop
  | none => isThere p = true
  | some v => v ∈ clears p

/-- The versions that the report of a cleared row covers. -/
def coveredBy (p : Probed) : Option String → List String
  | none => p.versions
  | some v => [v]

theorem reportedBy_iff (registry : String) (rows : Rows) (p : Probed) (row : UpstreamStatus)
    (covered : List String) :
    ReportedBy registry rows p row covered ↔
      ∃ version, Cleared p version ∧ rows.lookup (registry, p.name, version) = some row ∧
        covered = coveredBy p version := by
  constructor
  · rintro (hpackage | ⟨v, hversion⟩)
    · exact ⟨none, hpackage⟩
    · exact ⟨some v, hversion⟩
  · rintro ⟨version, h⟩
    cases version with
    | none => exact Or.inl h
    | some v => exact Or.inr ⟨v, h⟩

variable (policy : UpstreamAuditPolicy) (registry : String) (now : DateTime)

theorem missedTimes_some (key : Key) (n : ℕ) (row : UpstreamStatus) :
    missedTimes policy now key n (some row) ≠ none := by
  unfold missedTimes
  cases n with
  | zero => nofun
  | succ n =>
    rw [Function.iterate_succ_apply']
    nofun

/-- A row is gone after the outcome exactly if the outcome clears it. -/
theorem effect_eq_none_iff (p : Probed) (version : Option String) (row : UpstreamStatus) :
    effect policy now p (registry, p.name, version) (some row) = none ↔ Cleared p version := by
  unfold effect Cleared isThere clears
  cases version with
  | none => cases p.outcome <;> simp
  | some v =>
    cases p.outcome with
    | present =>
      dsimp only
      split_ifs with hv
      · exact iff_of_true rfl hv
      · exact iff_of_false (by nofun) hv
    | missingVersions missing =>
      dsimp only
      rw [List.mem_filter, decide_eq_true_eq]
      split_ifs with hmissing hheld
      · exact iff_of_false (missedTimes_some _ _ _ _ _) fun h => h.2 hmissing
      · exact iff_of_true rfl ⟨hheld, hmissing⟩
      · exact iff_of_false (by nofun) fun h => hheld h.1
    | _ => exact iff_of_false (by nofun) List.not_mem_nil

end Cleared

section Evidence

/-- The versions whose blocks the block arm lifts for a transition, where they are its
own (`unblock_reappeared`). -/
def liftable : Transition → List String
  | .reappeared row versions => if row.state = .disappeared then versions else []
  | .confirmed _ _ => []

def Transition.row : Transition → UpstreamStatus
  | .reappeared row _ => row
  | .confirmed row _ => row

/-- The upstream was asked about the package, or about this very version of it, and
confirmed it. -/
def Probed.Confirmed (client : RegistryClient) (registry : String) (p : Probed) :
    Option String → Prop
  | none => packageConfirmed client registry p.name p.versions = true
  | some v => v ∈ confirmedVersions client registry p.name p.versions

instance (client : RegistryClient) (registry : String) (p : Probed) :
    (version : Option String) → Decidable (p.Confirmed client registry version)
  | none => inferInstanceAs (Decidable (packageConfirmed client registry p.name p.versions = true))
  | some v => inferInstanceAs (Decidable (v ∈ confirmedVersions client registry p.name p.versions))

/-- The upstream confirmed the key in this pass. -/
def Pass.Confirmed (policy : UpstreamAuditPolicy) (pass : Pass) (k : Key) : Prop :=
  k.1 = pass.registry ∧ ∃ client ∈ pass.client, ∃ p ∈ pass.outcomes policy client,
    p.name = k.2.1 ∧ p.Confirmed client pass.registry k.2.2

/-- What a pass clears, what it reports as reappeared and what the block arm lifts for it
was confirmed in the pass. -/
structure ClearsOnEvidence (policy : UpstreamAuditPolicy) (pass : Pass) (rows : Rows) : Prop where
  cleared : ∀ k row, rows.lookup k = some row →
    (sweepRegistry policy pass rows).1.lookup k = none → pass.Confirmed policy k
  reported : ∀ row versions,
    Transition.reappeared row versions ∈ (sweepRegistry policy pass rows).2.transitions →
    pass.Confirmed policy (pass.registry, row.packageName, row.version)
  lifted : ∀ t ∈ (sweepRegistry policy pass rows).2.transitions, ∀ v ∈ liftable t,
    pass.Confirmed policy (pass.registry, t.row.packageName, some v)

/-- Where nothing is cleared without having been asked about. With every version found,
a package that disappeared holds no version behind the cap; with versions missing, no
version behind the cap has a row, and the package has one only if the upstream confirmed
the package, and all its held versions if it disappeared. -/
def NothingUnasked (rows : Rows) (client : RegistryClient) (registry : String) (p : Probed) : Prop :=
  match p.outcome with
  | .present =>
    ∀ row ∈ rows.lookup (registry, p.name, none), row.state = .disappeared →
      listing client p.name = none →
      ∀ v ∈ p.versions, v ∈ p.versions.take MAX_VERSION_PROBES_PER_PACKAGE
  | .missingVersions _ =>
    (listing client p.name = none →
      ∀ v ∈ p.versions, v ∈ p.versions.take MAX_VERSION_PROBES_PER_PACKAGE ∨
        rows.lookup (registry, p.name, some v) = none) ∧
    ∀ row ∈ rows.lookup (registry, p.name, none),
      packageConfirmed client registry p.name p.versions = true ∧
      (row.state = .disappeared →
        ∀ v ∈ p.versions, v ∈ confirmedVersions client registry p.name p.versions)
  | .missingPackage => True
  | .inconclusive _ => True

/-- A package's part of `ClearsOnEvidence`. -/
def OnEvidence (rows : Rows) (client : RegistryClient) (registry : String) (p : Probed) : Prop :=
  ∀ version row, rows.lookup (registry, p.name, version) = some row → Cleared p version →
    p.Confirmed client registry version ∧
    (row.state = .disappeared → ∀ v ∈ coveredBy p version, p.Confirmed client registry (some v))

section Package
variable {client : RegistryClient} {registry name : String} {versions : List String}

theorem packageConfirmed_of_mem {v : String}
    (h : v ∈ confirmedVersions client registry name versions) :
    packageConfirmed client registry name versions = true := by
  unfold packageConfirmed
  rw [Bool.or_eq_true, Bool.not_eq_true', List.isEmpty_eq_false_iff]
  exact Or.inr (List.ne_nil_of_mem h)

theorem packageConfirmed_of_listing {listed : List String} (h : listing client name = some listed) :
    packageConfirmed client registry name versions = true := by
  unfold packageConfirmed
  rw [h]
  rfl

/-- Every question was answered with the version: those asked about are the confirmed
ones. -/
theorem present_spec (h : (probePackage client registry name versions).1 = .present) :
    packageConfirmed client registry name versions = true ∧
    (∀ v ∈ versions.take MAX_VERSION_PROBES_PER_PACKAGE,
      v ∈ confirmedVersions client registry name versions) ∧
    (listing client name = none → ∀ v ∈ confirmedVersions client registry name versions,
      v ∈ versions.take MAX_VERSION_PROBES_PER_PACKAGE) ∧
    (listing client name ≠ none → ∀ v ∈ versions,
      v ∈ confirmedVersions client registry name versions) := by
  rcases probe_cases client registry name versions with
    ⟨listed, hlisting, hconfirmed, hprobe⟩ | ⟨ask, hlisting, hconfirmed, hprobe⟩ | ⟨-, -, hprobe⟩
  · rcases hprobe with ⟨-, hall⟩ | ⟨missing, hmissing, -⟩
    · have hmem : ∀ v ∈ versions, v ∈ confirmedVersions client registry name versions := by
        intro v hv
        rw [hconfirmed, List.mem_filter]
        exact ⟨hv, decide_eq_true (hall v hv)⟩
      refine ⟨packageConfirmed_of_listing hlisting, fun v hv => hmem v (List.mem_of_mem_take hv), ?_,
        fun _ => hmem⟩
      rw [hlisting]
      nofun
    · rw [hmissing] at h
      cases h
  · rw [hprobe] at h
    obtain ⟨hne, hall⟩ := probeEach_present h
    have hmem : ∀ v ∈ versions.take MAX_VERSION_PROBES_PER_PACKAGE,
        v ∈ confirmedVersions client registry name versions := by
      intro v hv
      obtain ⟨i, hi⟩ := List.mem_iff_getElem?.mp hv
      have he : (v, i) ∈ (versions.take MAX_VERSION_PROBES_PER_PACKAGE).zipIdx :=
        List.mem_zipIdx_iff_getElem?.mpr hi
      rw [hconfirmed, mem_confirmedEach]
      exact ⟨(v, i), he, rfl, hall _ he⟩
    refine ⟨?_, hmem, ?_, fun hlisting' => absurd hlisting hlisting'⟩
    · cases versions with
      | nil => exact absurd rfl hne
      | cons v rest => exact packageConfirmed_of_mem (hmem v List.mem_cons_self)
    · intro _ v hv
      rw [hconfirmed, mem_confirmedEach] at hv
      obtain ⟨e, he, rfl, -⟩ := hv
      exact mem_of_mem_zipIdx_take he
  · rcases hprobe with hprobe | ⟨e, hprobe⟩ <;>
    · rw [hprobe] at h
      cases h

/-- With some versions missing, the others were confirmed if they were asked about, by the
listing or within the cap. -/
theorem missingVersions_spec {missing : List String}
    (h : (probePackage client registry name versions).1 = .missingVersions missing) {v : String}
    (hheld : v ∈ versions) (hv : v ∉ missing) :
    v ∈ confirmedVersions client registry name versions ↔
      (listing client name = none → v ∈ versions.take MAX_VERSION_PROBES_PER_PACKAGE) := by
  rcases probe_cases client registry name versions with
    ⟨listed, hlisting, hconfirmed, hprobe⟩ | ⟨ask, hlisting, hconfirmed, hprobe⟩ | ⟨-, -, hprobe⟩
  · rcases hprobe with ⟨hpresent, -⟩ | ⟨missing', hmissing, hmem⟩
    · rw [hpresent] at h
      cases h
    · rw [hmissing] at h
      obtain rfl := ProbeOutcome.missingVersions.inj h
      rw [hconfirmed, List.mem_filter, hlisting]
      refine iff_of_true ⟨hheld, ?_⟩ nofun
      by_contra hnot
      exact hv ((hmem v).mpr ⟨hheld, of_decide_eq_false (eq_false_of_ne_true hnot)⟩)
  · rw [hprobe] at h
    rw [hconfirmed, mem_confirmedEach]
    constructor
    · rintro ⟨e, he, rfl, -⟩ _
      exact mem_of_mem_zipIdx_take he
    · intro htake
      obtain ⟨i, hi⟩ := List.mem_iff_getElem?.mp (htake hlisting)
      have he : (v, i) ∈ (versions.take MAX_VERSION_PROBES_PER_PACKAGE).zipIdx :=
        List.mem_zipIdx_iff_getElem?.mpr hi
      refine ⟨(v, i), he, rfl, ?_⟩
      by_contra hnot
      exact hv ((probeEach_missing h v).mpr ⟨(v, i), he, rfl, eq_false_of_ne_true hnot⟩)
  · rcases hprobe with hprobe | ⟨e, hprobe⟩ <;>
    · rw [hprobe] at h
      cases h

/-- What was not asked about is not missing. -/
theorem asked_of_missing {missing : List String}
    (h : (probePackage client registry name versions).1 = .missingVersions missing) {v : String}
    (hv : v ∈ missing) (hlisting : listing client name = none) :
    v ∈ versions.take MAX_VERSION_PROBES_PER_PACKAGE := by
  rcases probe_cases client registry name versions with
    ⟨listed, hlisting', -, -⟩ | ⟨ask, -, -, hprobe⟩ | ⟨-, -, hprobe⟩
  · rw [hlisting'] at hlisting
    cases hlisting
  · rw [hprobe] at h
    obtain ⟨e, he, rfl, -⟩ := (probeEach_missing h v).mp hv
    exact mem_of_mem_zipIdx_take he
  · rcases hprobe with hprobe | ⟨e, hprobe⟩ <;>
    · rw [hprobe] at h
      cases h

end Package

/-- One package is cleared on evidence exactly where nothing unasked stands. -/
theorem onEvidence_iff {rows : Rows} {client : RegistryClient} {registry : String} {p : Probed}
    (hprobe : p.outcome = (probePackage client registry p.name p.versions).1) :
    OnEvidence rows client registry p ↔ NothingUnasked rows client registry p := by
  unfold OnEvidence NothingUnasked Cleared isThere clears
  cases hout : p.outcome with
  | inconclusive e =>
    refine iff_of_true ?_ trivial
    rintro (_ | v) row _ hcleared
    · cases hcleared
    · cases hcleared
  | missingPackage =>
    refine iff_of_true ?_ trivial
    rintro (_ | v) row _ hcleared
    · cases hcleared
    · cases hcleared
  | present =>
    obtain ⟨hpackage, htake, hasked, hlisted⟩ := present_spec (hprobe.symm.trans hout)
    dsimp only
    constructor
    · intro h row hrow hstate hlisting v hv
      exact hasked hlisting v ((h none row hrow rfl).2 hstate v hv)
    · intro h version row hrow hcleared
      cases version with
      | none =>
        refine ⟨hpackage, ?_⟩
        intro hstate v hv
        by_cases hlisting : listing client p.name = none
        · exact htake v (h row hrow hstate hlisting v hv)
        · exact hlisted hlisting v hv
      | some v =>
        refine ⟨htake v hcleared, ?_⟩
        intro _ w hw
        rw [List.mem_singleton.mp hw]
        exact htake v hcleared
  | missingVersions missing =>
    have hprobe' := hprobe.symm.trans hout
    dsimp only
    constructor
    · intro h
      refine ⟨?_, ?_⟩
      · intro hlisting v hv
        by_contra hnot
        rw [not_or] at hnot
        obtain ⟨row, hrow⟩ := Option.ne_none_iff_exists'.mp hnot.2
        have hmissing : v ∉ missing := fun hmissing =>
          hnot.1 (asked_of_missing hprobe' hmissing hlisting)
        have hcleared : v ∈ p.versions.filter fun v => decide (v ∉ missing) :=
          List.mem_filter.mpr ⟨hv, decide_eq_true hmissing⟩
        exact hnot.1 ((missingVersions_spec hprobe' hv hmissing).mp (h (some v) row hrow hcleared).1
          hlisting)
      · intro row hrow
        exact h none row hrow rfl
    · rintro ⟨hversions, hpackage⟩ version row hrow hcleared
      cases version with
      | none => exact hpackage row hrow
      | some v =>
        obtain ⟨hheld, hmissing⟩ := List.mem_filter.mp hcleared
        have hconfirmed : v ∈ confirmedVersions client registry p.name p.versions := by
          refine (missingVersions_spec hprobe' hheld (of_decide_eq_true hmissing)).mpr ?_
          intro hlisting
          refine (hversions hlisting v hheld).resolve_right ?_
          rw [hrow]
          nofun
        refine ⟨hconfirmed, ?_⟩
        intro _ w hw
        rw [List.mem_singleton.mp hw]
        exact hconfirmed

section Sweep
variable {policy : UpstreamAuditPolicy} {pass : Pass} {client : RegistryClient}

/-- The sweep of a registry whose client is there and whose gate lets it through. -/
theorem sweepRegistry_eq (hclient : pass.client = some client)
    (hvoid : voids policy (pass.outcomes policy client) = false) (rows : Rows) :
    sweepRegistry policy pass rows =
      (pass.outcomes policy client).foldl (applyOne policy pass.registry pass.now)
        (rows, (tally (pass.outcomes policy client) .empty).2) := by
  unfold sweepRegistry apply
  rw [hclient]
  dsimp only
  rw [hvoid]
  rfl

theorem reported_sweep (hclient : pass.client = some client)
    (hvoid : voids policy (pass.outcomes policy client) = false) (rows : Rows)
    (row : UpstreamStatus) (covered : List String) :
    Reported (sweepRegistry policy pass rows) row covered ↔
      ∃ p ∈ pass.outcomes policy client, ∃ version, Cleared p version ∧
        rows.lookup (pass.registry, p.name, version) = some row ∧ covered = coveredBy p version := by
  rw [sweepRegistry_eq hclient hvoid,
    reported_foldl_applyOne _ (outcomes_nodup policy pass client)]
  have hnone : ¬ Reported (rows, (tally (pass.outcomes policy client) .empty).2) row covered := by
    unfold Reported
    rw [transitions_tally]
    exact List.not_mem_nil
  rw [or_iff_right hnone]
  simp only [reportedBy_iff]

theorem cleared_sweep (hclient : pass.client = some client)
    (hvoid : voids policy (pass.outcomes policy client) = false) {rows : Rows} {k : Key}
    {row : UpstreamStatus} (hrow : rows.lookup k = some row) :
    (sweepRegistry policy pass rows).1.lookup k = none ↔
      k.1 = pass.registry ∧ ∃ p ∈ pass.outcomes policy client, p.name = k.2.1 ∧ Cleared p k.2.2 := by
  rw [sweepRegistry_eq hclient hvoid]
  obtain ⟨registry, name, version⟩ := k
  have hnodup := outcomes_nodup policy pass client
  dsimp only
  by_cases hprobed : registry = pass.registry ∧ ∃ p ∈ pass.outcomes policy client, p.name = name
  · obtain ⟨rfl, p, hp, rfl⟩ := hprobed
    rw [lookup_foldl_applyOne _ _ _ _ hnodup _ hp, hrow, effect_eq_none_iff]
    constructor
    · intro hcleared
      exact ⟨rfl, p, hp, rfl, hcleared⟩
    · rintro ⟨-, q, hq, hname, hcleared⟩
      rw [List.inj_on_of_nodup_map hnodup hq hp hname] at hcleared
      exact hcleared
  · rw [lookup_foldl_applyOne_other, hrow]
    · refine iff_of_false (by nofun) ?_
      rintro ⟨hregistry, p, hp, hname, -⟩
      exact hprobed ⟨hregistry, p, hp, hname⟩
    · intro p hp version' hkey
      obtain ⟨hregistry, hname⟩ := Prod.mk.inj hkey
      exact hprobed ⟨hregistry, p, hp, (congrArg Prod.fst hname).symm⟩

/-- The key of a probed package is confirmed if its package's questions confirmed it. -/
theorem confirmed_iff (hclient : pass.client = some client) {p : Probed}
    (hp : p ∈ pass.outcomes policy client) (version : Option String) :
    pass.Confirmed policy (pass.registry, p.name, version) ↔
      p.Confirmed client pass.registry version := by
  unfold Pass.Confirmed
  rw [hclient]
  constructor
  · rintro ⟨-, client', hclient', q, hq, hname, hconfirmed⟩
    obtain rfl := Option.some.inj hclient'
    rw [List.inj_on_of_nodup_map (outcomes_nodup policy pass client) hq hp hname] at hconfirmed
    exact hconfirmed
  · intro hconfirmed
    exact ⟨rfl, client, rfl, p, hp, rfl, hconfirmed⟩

theorem clearsOnEvidence_of_unchanged {rows : Rows}
    (hrows : (sweepRegistry policy pass rows).1 = rows)
    (htransitions : (sweepRegistry policy pass rows).2.transitions = []) :
    ClearsOnEvidence policy pass rows where
  cleared := by
    intro k row hrow hnone
    rw [hrows, hrow] at hnone
    cases hnone
  reported := by
    rw [htransitions]
    nofun
  lifted := by
    rw [htransitions]
    nofun

/-- A sweep clears on evidence if it does for each package. -/
theorem clearsOnEvidence_iff_forall (hclient : pass.client = some client)
    (hvoid : voids policy (pass.outcomes policy client) = false) (rows : StatusRows) :
    ClearsOnEvidence policy pass rows.1 ↔
      ∀ p ∈ pass.outcomes policy client, OnEvidence rows.1 client pass.registry p := by
  constructor
  · intro h p hp version row hrow hcleared
    have hname : row.packageName = p.name := (rows.2 _ row hrow).1
    refine ⟨?_, ?_⟩
    · rw [← confirmed_iff hclient hp]
      exact h.cleared _ row hrow
        ((cleared_sweep hclient hvoid hrow).mpr ⟨rfl, p, hp, rfl, hcleared⟩)
    · intro hstate v hv
      rw [← confirmed_iff hclient hp, ← hname]
      refine h.lifted _ ((reported_sweep hclient hvoid rows.1 row _).mpr
        ⟨p, hp, version, hcleared, hrow, rfl⟩) v ?_
      unfold liftable
      dsimp only
      rw [if_pos hstate]
      exact hv
  · intro h
    refine ⟨?_, ?_, ?_⟩
    · intro k row hrow hnone
      obtain ⟨hregistry, p, hp, hname, hcleared⟩ := (cleared_sweep hclient hvoid hrow).mp hnone
      have hkey : k = (pass.registry, p.name, k.2.2) := by
        rw [← hregistry, hname]
      rw [hkey] at hrow ⊢
      exact (confirmed_iff hclient hp _).mpr (h p hp _ row hrow hcleared).1
    · intro row versions hreported
      obtain ⟨p, hp, version, hcleared, hrow, -⟩ :=
        (reported_sweep hclient hvoid rows.1 row versions).mp hreported
      obtain ⟨hname, hversion⟩ := rows.2 _ row hrow
      rw [hname, hversion]
      exact (confirmed_iff hclient hp _).mpr (h p hp _ row hrow hcleared).1
    · intro t ht v hv
      cases t with
      | confirmed row versions => cases hv
      | reappeared row versions =>
        obtain ⟨p, hp, version, hcleared, hrow, rfl⟩ :=
          (reported_sweep hclient hvoid rows.1 row versions).mp ht
        unfold liftable at hv
        dsimp only at hv
        split_ifs at hv with hstate
        · unfold Transition.row
          dsimp only
          rw [(rows.2 _ row hrow).1]
          exact (confirmed_iff hclient hp _).mpr ((h p hp _ row hrow hcleared).2 hstate v hv)
        · cases hv

end Sweep

/-- A sweep clears, reports and lets the block arm lift on evidence only, exactly where
the gate voids it or nothing unasked stands; and it keeps the rows under their own names. -/
theorem clears_on_evidence_iff (policy : UpstreamAuditPolicy) (pass : Pass) (rows : StatusRows) :
    (ClearsOnEvidence policy pass rows.1 ↔
      ∀ client ∈ pass.client, voids policy (pass.outcomes policy client) = false →
        ∀ p ∈ pass.outcomes policy client, NothingUnasked rows.1 client pass.registry p) ∧
    Named (sweepRegistry policy pass rows.1).1 := by
  refine ⟨?_, named_sweepRegistry policy pass rows.2⟩
  cases hclient : pass.client with
  | none =>
    refine iff_of_true ?_ (by nofun)
    have hsweep : sweepRegistry policy pass rows.1 = (rows.1, .empty) := by
      unfold sweepRegistry
      rw [hclient]
    exact clearsOnEvidence_of_unchanged (congrArg Prod.fst hsweep)
      (congrArg (fun s : Sweeping => s.2.transitions) hsweep)
  | some client =>
    cases hvoid : voids policy (pass.outcomes policy client) with
    | true =>
      refine iff_of_true ?_ ?_
      · have hsweep : sweepRegistry policy pass rows.1 =
            (rows.1, { (tally (pass.outcomes policy client) .empty).2 with void := true }) := by
          unfold sweepRegistry apply
          rw [hclient]
          dsimp only
          rw [if_pos hvoid]
        refine clearsOnEvidence_of_unchanged (congrArg Prod.fst hsweep) ?_
        rw [hsweep]
        exact transitions_tally _ _
      · intro client' hclient' hfalse
        obtain rfl := Option.some.inj hclient'
        rw [hvoid] at hfalse
        cases hfalse
    | false =>
      rw [clearsOnEvidence_iff_forall hclient hvoid]
      constructor
      · intro h client' hclient' _ p hp
        obtain rfl := Option.some.inj hclient'
        exact (onEvidence_iff (outcome_of_mem hp)).mp (h p hp)
      · intro h p hp
        exact (onEvidence_iff (outcome_of_mem hp)).mpr (h client rfl hvoid p hp)

section Samples

/-- An upstream that has lost the whole package. -/
def goneClient : RegistryClient :=
  { sampleClient with listVersions := fun _ => .error (.notFound "left") }

def goneSweep (now : DateTime) : Event :=
  .sweep now (.ok oneFile) (fun _ => some .pypi) (fun _ => some goneClient) fun _ => now

/-- The rows after the package was missed on three sweeps: it has disappeared. -/
def rowsAfterGone : Rows :=
  (Runs.run (step samplePolicy ["pypi"]) World.empty
    [goneSweep 0, goneSweep 43200, goneSweep 86400]).rows

/-- The next sweep: the package is back, with another version only. -/
def otherVersion : Pass :=
  ⟨"pypi", addHeld (sampleRow "pypi/left/1.0/left.whl") "1.0" ∅, none, some sampleClient, 90000⟩

/-- The block of a version is lifted by the very sweep that finds it missing: the row of
its package is cleared, and covers it. -/
theorem missing_version_is_lifted :
    ¬ ClearsOnEvidence samplePolicy otherVersion rowsAfterGone := by
  intro h
  have hlifted : ∃ t ∈ (sweepRegistry samplePolicy otherVersion rowsAfterGone).2.transitions,
      "1.0" ∈ liftable t ∧ t.row.packageName = "left" := by
    decide +kernel
  obtain ⟨t, ht, hv, hname⟩ := hlifted
  obtain ⟨-, client, hclient, p, hp, -, hconfirmed⟩ := h.lifted t ht "1.0" hv
  have hnot : ∀ client ∈ otherVersion.client, ∀ p ∈ otherVersion.outcomes samplePolicy client,
      ¬ p.Confirmed client otherVersion.registry (some "1.0") := by
    decide +kernel
  exact hnot client hclient p hp hconfirmed

end Samples

end Evidence

end BatleHub.UpstreamAudit
