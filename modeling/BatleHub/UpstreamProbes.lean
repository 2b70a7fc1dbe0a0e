import BatleHub.Lib.AssocMap
import BatleHub.Lib.Texts
import BatleHub.RetentionRuns

/-!
One package's probe (`services/upstream_audit/probe.rs`): the listing where the kind has
one, and one question for each held version or file otherwise, up to a cap. Besides the
outcome it is kept what the upstream confirmed.
-/
namespace BatleHub.UpstreamAudit

open Lib

def MAX_VERSION_PROBES_PER_PACKAGE : ℕ := 25

def PATH_KIND_PACKAGE : String := "repo"
def PATH_KIND_VERSION : String := "_"

/-- Every file of the kind is filed under one package and one version. -/
def isPathAddressed : RegistryKind → Bool
  | .deb | .rpm | .pacman | .apk | .jetbrains | .generic => true
  | _ => false

/-- One listing request covers every cached version. The other kinds list nothing. -/
def listingCapable : RegistryKind → Bool
  | .github | .gitlab | .forgejo | .nix => false
  | kind => !isPathAddressed kind

inductive ProbeOutcome where
  | present
  | missingPackage
  | missingVersions (versions : List String)
  | inconclusive (error : Option String)
  deriving DecidableEq

def ProbeOutcome.isMissing : ProbeOutcome → Bool
  | .missingPackage => true
  | .missingVersions _ => true
  | _ => false

/-- The client of a registry, with what the upstream answers in one sweep. The questions
about single versions are counted, so that the same one can be answered differently. -/
structure RegistryClient where
  kind : RegistryKind
  listVersions : String → Except CoreError (List String)
  resolveMetadata : ℕ → PackageId → Except CoreError Unit
  probeArtifact : ℕ → PackageId → Except CoreError Unit

/-- The loop over the questions: how many were answered, and what is missing. It stops at
the first failure to answer. -/
def askEach (ask : ℕ → String → Except CoreError Unit) :
    ℕ → List String → List String → Except String (ℕ × List String)
  | answered, [], missing => .ok (answered, missing)
  | answered, v :: rest, missing =>
    match ask answered v with
    | .ok _ => askEach ask (answered + 1) rest missing
    | .error (.notFound _) => askEach ask (answered + 1) rest (missing ++ [v])
    | .error (.notFoundWithheld _) => askEach ask (answered + 1) rest (missing ++ [v])
    | .error e => .error (Retention.displayError e)

/-- The rung that asks about one version after the other. -/
def probeEach (ask : ℕ → String → Except CoreError Unit) (versions : List String) :
    ProbeOutcome × Bool :=
  let capped := decide (MAX_VERSION_PROBES_PER_PACKAGE < versions.length)
  match askEach ask 0 (versions.take MAX_VERSION_PROBES_PER_PACKAGE) [] with
  | .error e => (.inconclusive (some e), capped)
  | .ok (0, _) => (.inconclusive none, capped)
  | .ok (_, []) => (.present, capped)
  | .ok (_, v :: missing) => (.missingVersions (v :: missing), capped)

section Probe
variable (client : RegistryClient) (registry name : String) (versions : List String)

def askVersion (i : ℕ) (version : String) : Except CoreError Unit :=
  client.resolveMetadata i (PackageId.new registry name version)

def askFile (i : ℕ) (path : String) : Except CoreError Unit :=
  client.probeArtifact i ⟨registry, name, PATH_KIND_VERSION, some path⟩

/-- One `HEAD` for each held file. -/
def probeFiles : ProbeOutcome × Bool := probeEach (askFile client registry name) versions

/-- Probe the cached versions of a package. -/
def probePackage : ProbeOutcome × Bool :=
  if isPathAddressed client.kind then probeFiles client registry name versions
  else if listingCapable client.kind then
    match client.listVersions name with
    | .ok [] => probeEach (askVersion client registry name) versions
    | .ok listed =>
      match versions.filter fun v => decide (v ∉ listed) with
      | [] => (.present, false)
      | missing => (.missingVersions missing, false)
    | .error (.notFound _) => (.missingPackage, false)
    | .error (.notFoundWithheld _) => (.missingPackage, false)
    | .error e => (.inconclusive (some (Retention.displayError e)), false)
  else probeEach (askVersion client registry name) versions

/-- The versions that were asked about by name and confirmed. -/
def confirmedEach (ask : ℕ → String → Except CoreError Unit) (versions : List String) :
    List String :=
  ((versions.take MAX_VERSION_PROBES_PER_PACKAGE).zipIdx.filter fun e =>
    (ask e.2 e.1).isOk).map Prod.fst

/-- The listing of the package, where one is asked for and names a version. -/
def listing : Option (List String) :=
  if isPathAddressed client.kind || !listingCapable client.kind then none
  else
    match client.listVersions name with
    | .ok [] => none
    | .ok listed => some listed
    | .error _ => none

/-- The held versions that the upstream was asked about and confirmed. -/
def confirmedVersions : List String :=
  match listing client name with
  | some listed => versions.filter fun v => decide (v ∈ listed)
  | none =>
    if isPathAddressed client.kind then confirmedEach (askFile client registry name) versions
    else if listingCapable client.kind && !(client.listVersions name).isOk then []
    else confirmedEach (askVersion client registry name) versions

/-- The upstream confirmed the package or one of its versions. -/
def packageConfirmed : Bool :=
  (listing client name).isSome || !(confirmedVersions client registry name versions).isEmpty

end Probe

section Spec

/-- What the questions asked say of a version: denied and not confirmed, or the reverse,
where it is asked about once. -/
theorem askEach_spec (ask : ℕ → String → Except CoreError Unit) (versions : List String) :
    ∀ (answered : ℕ) (missing : List String) (count : ℕ) (all : List String),
      askEach ask answered versions missing = .ok (count, all) →
      count = answered + versions.length ∧ ∀ v, v ∈ all ↔ v ∈ missing ∨
        ∃ e ∈ versions.zipIdx answered, e.1 = v ∧ (ask e.2 e.1).isOk = false := by
  induction versions with
  | nil =>
    intro answered missing count all h
    obtain ⟨rfl, rfl⟩ := Prod.mk.inj (Except.ok.inj h)
    refine ⟨rfl, ?_⟩
    intro v
    simp
  | cons w rest ih =>
    intro answered missing count all h
    unfold askEach at h
    cases hask : ask answered w with
    | ok u =>
      rw [hask] at h
      obtain ⟨hcount, hall⟩ := ih _ _ _ _ h
      refine ⟨by rw [hcount, List.length_cons]; omega, ?_⟩
      intro v
      rw [hall, List.zipIdx_cons]
      simp only [List.mem_cons, exists_eq_or_imp, hask, Except.isOk, Except.toBool, Bool.true_eq_false,
        and_false, false_or]
    | error e =>
      have hdenied : askEach ask (answered + 1) rest (missing ++ [w]) = .ok (count, all) →
          count = answered + (w :: rest).length ∧ ∀ v, v ∈ all ↔ v ∈ missing ∨
            ∃ e ∈ (w :: rest).zipIdx answered, e.1 = v ∧ (ask e.2 e.1).isOk = false := by
        intro h
        obtain ⟨hcount, hall⟩ := ih _ _ _ _ h
        refine ⟨by rw [hcount, List.length_cons]; omega, ?_⟩
        intro v
        rw [hall, List.zipIdx_cons, List.mem_append, List.mem_singleton]
        simp only [List.mem_cons, exists_eq_or_imp, hask, Except.isOk, Except.toBool, and_true,
          or_assoc, eq_comm]
      rw [hask] at h
      cases e with
      | notFound m => exact hdenied h
      | notFoundWithheld m => exact hdenied h
      | _ => cases h

/-- The outcome of one question for each version, in what was answered. -/
theorem probeEach_missing {ask : ℕ → String → Except CoreError Unit} {versions missing : List String}
    (h : (probeEach ask versions).1 = .missingVersions missing) (v : String) :
    v ∈ missing ↔ ∃ e ∈ (versions.take MAX_VERSION_PROBES_PER_PACKAGE).zipIdx,
      e.1 = v ∧ (ask e.2 e.1).isOk = false := by
  unfold probeEach at h
  dsimp only at h
  cases hask : askEach ask 0 (versions.take MAX_VERSION_PROBES_PER_PACKAGE) [] with
  | error e =>
    rw [hask] at h
    cases h
  | ok r =>
    obtain ⟨count, all⟩ := r
    have hall := (askEach_spec ask _ _ _ _ _ hask).2 v
    rw [hask] at h
    cases count with
    | zero => cases h
    | succ n =>
      cases all with
      | nil => cases h
      | cons w rest =>
        obtain rfl := ProbeOutcome.missingVersions.inj h
        rw [hall]
        simp only [List.not_mem_nil, false_or]

theorem probeEach_present {ask : ℕ → String → Except CoreError Unit} {versions : List String}
    (h : (probeEach ask versions).1 = .present) :
    versions ≠ [] ∧ ∀ e ∈ (versions.take MAX_VERSION_PROBES_PER_PACKAGE).zipIdx,
      (ask e.2 e.1).isOk = true := by
  unfold probeEach at h
  dsimp only at h
  cases hask : askEach ask 0 (versions.take MAX_VERSION_PROBES_PER_PACKAGE) [] with
  | error e =>
    rw [hask] at h
    cases h
  | ok r =>
    obtain ⟨count, all⟩ := r
    obtain ⟨hcount, hall⟩ := askEach_spec ask _ _ _ _ _ hask
    rw [hask] at h
    cases count with
    | zero => cases h
    | succ n =>
      cases all with
      | nil =>
        refine ⟨?_, ?_⟩
        · rintro rfl
          rw [List.take_nil, List.length_nil] at hcount
          omega
        · intro e he
          by_contra hnot
          exact List.not_mem_nil ((hall e.1).mpr (Or.inr ⟨e, he, rfl, by simpa using hnot⟩))
      | cons w rest => cases h

theorem probeEach_ne_missingPackage (ask : ℕ → String → Except CoreError Unit)
    (versions : List String) : (probeEach ask versions).1 ≠ .missingPackage := by
  unfold probeEach
  dsimp only
  split <;> nofun

theorem mem_confirmedEach (ask : ℕ → String → Except CoreError Unit) (versions : List String)
    (v : String) :
    v ∈ confirmedEach ask versions ↔
      ∃ e ∈ (versions.take MAX_VERSION_PROBES_PER_PACKAGE).zipIdx, e.1 = v ∧
        (ask e.2 e.1).isOk = true := by
  unfold confirmedEach
  rw [List.mem_map]
  simp only [List.mem_filter]
  constructor
  · rintro ⟨e, ⟨he, hok⟩, hv⟩
    exact ⟨e, he, hv, hok⟩
  · rintro ⟨e, he, hv, hok⟩
    exact ⟨e, ⟨he, hok⟩, hv⟩

theorem mem_of_mem_zipIdx_take {versions : List String} {e : String × ℕ}
    (h : e ∈ (versions.take MAX_VERSION_PROBES_PER_PACKAGE).zipIdx) :
    e.1 ∈ versions.take MAX_VERSION_PROBES_PER_PACKAGE :=
  List.fst_mem_of_mem_zipIdx h

theorem two_le_count {l : List String} {v : String} {i j : ℕ} (hi : l[i]? = some v)
    (hj : l[j]? = some v) (h : i < j) : 2 ≤ l.count v := by
  have hsplit : l.count v = (l.take j).count v + (l.drop j).count v := by
    rw [← List.count_append, List.take_append_drop]
  have hbefore : v ∈ l.take j := by
    refine List.mem_of_getElem? (i := i) ?_
    rw [List.getElem?_take_of_lt h]
    exact hi
  have hafter : v ∈ l.drop j := by
    refine List.mem_of_getElem? (i := 0) ?_
    rw [List.getElem?_drop]
    exact hj
  have hpos := List.count_pos_iff.mpr hbefore
  have hpos' := List.count_pos_iff.mpr hafter
  omega

/-- A version held once is asked about once. -/
theorem zipIdx_unique {versions : List String} {v : String} (hcount : versions.count v ≤ 1)
    {e e' : String × ℕ} (he : e ∈ (versions.take MAX_VERSION_PROBES_PER_PACKAGE).zipIdx)
    (he' : e' ∈ (versions.take MAX_VERSION_PROBES_PER_PACKAGE).zipIdx) (hv : e.1 = v)
    (hv' : e'.1 = v) : e = e' := by
  have hle : (versions.take MAX_VERSION_PROBES_PER_PACKAGE).count v ≤ 1 :=
    (List.Sublist.count_le v (List.take_sublist _ _)).trans hcount
  obtain ⟨x, i⟩ := e
  obtain ⟨y, j⟩ := e'
  dsimp only at hv hv'
  subst hv hv'
  have hi := List.mem_zipIdx_iff_getElem?.mp he
  have hj := List.mem_zipIdx_iff_getElem?.mp he'
  rcases Nat.lt_trichotomy i j with hlt | rfl | hlt
  · have htwo : 2 ≤ (versions.take MAX_VERSION_PROBES_PER_PACKAGE).count y :=
      two_le_count hi hj hlt
    omega
  · rfl
  · have htwo : 2 ≤ (versions.take MAX_VERSION_PROBES_PER_PACKAGE).count y :=
      two_le_count hj hi hlt
    omega

section Package
variable (client : RegistryClient) (registry name : String) (versions : List String)

/-- The three ways a package is probed. -/
theorem probe_cases :
    (∃ listed, listing client name = some listed ∧
        confirmedVersions client registry name versions =
          versions.filter (fun v => decide (v ∈ listed)) ∧
        ((probePackage client registry name versions).1 = .present ∧ (∀ v ∈ versions, v ∈ listed) ∨
          ∃ missing, (probePackage client registry name versions).1 = .missingVersions missing ∧
            ∀ v, v ∈ missing ↔ v ∈ versions ∧ v ∉ listed)) ∨
      (∃ ask, listing client name = none ∧
        confirmedVersions client registry name versions = confirmedEach ask versions ∧
        probePackage client registry name versions = probeEach ask versions) ∨
      listing client name = none ∧ confirmedVersions client registry name versions = [] ∧
        ((probePackage client registry name versions).1 = .missingPackage ∨
          ∃ e, (probePackage client registry name versions).1 = .inconclusive e) := by
  unfold confirmedVersions listing probePackage
  by_cases hpath : isPathAddressed client.kind = true
  · refine Or.inr (Or.inl ⟨askFile client registry name, ?_, ?_, ?_⟩)
    · rw [hpath]
      rfl
    · rw [hpath]
      rfl
    · rw [if_pos hpath]
      rfl
  · rw [Bool.not_eq_true] at hpath
    rw [hpath]
    by_cases hlisting : listingCapable client.kind = true
    · rw [hlisting]
      cases hlist : client.listVersions name with
      | ok listed =>
        cases listed with
        | nil => exact Or.inr (Or.inl ⟨askVersion client registry name, rfl, rfl, rfl⟩)
        | cons l ls =>
          refine Or.inl ⟨l :: ls, rfl, rfl, ?_⟩
          dsimp only [Bool.false_eq_true, if_false, if_true]
          cases hmissing : versions.filter fun v => decide (v ∉ l :: ls) with
          | nil =>
            refine Or.inl ⟨rfl, ?_⟩
            intro v hv
            by_contra hnot
            exact List.filter_eq_nil_iff.mp hmissing v hv (decide_eq_true hnot)
          | cons m ms =>
            refine Or.inr ⟨m :: ms, rfl, ?_⟩
            intro v
            rw [← hmissing, List.mem_filter, decide_eq_true_eq]
      | error e =>
        refine Or.inr (Or.inr ⟨rfl, rfl, ?_⟩)
        cases e with
        | notFound m => exact Or.inl rfl
        | notFoundWithheld m => exact Or.inl rfl
        | _ => exact Or.inr ⟨_, rfl⟩
    · rw [Bool.not_eq_true] at hlisting
      rw [hlisting]
      exact Or.inr (Or.inl ⟨askVersion client registry name, rfl, rfl, rfl⟩)

variable {client registry name versions}

theorem mem_versions_of_confirmed {v : String}
    (h : v ∈ confirmedVersions client registry name versions) : v ∈ versions := by
  rcases probe_cases client registry name versions with
    ⟨listed, -, hconfirmed, -⟩ | ⟨ask, -, hconfirmed, -⟩ | ⟨-, hconfirmed, -⟩
  · rw [hconfirmed] at h
    exact (List.mem_filter.mp h).1
  · rw [hconfirmed, mem_confirmedEach] at h
    obtain ⟨e, he, rfl, -⟩ := h
    exact List.mem_of_mem_take (mem_of_mem_zipIdx_take he)
  · rw [hconfirmed] at h
    cases h

/-- What is missing is held, and was not confirmed if it was asked about once. -/
theorem missing_spec {missing : List String}
    (h : (probePackage client registry name versions).1 = .missingVersions missing) {v : String}
    (hv : v ∈ missing) :
    v ∈ versions ∧ (versions.count v ≤ 1 → v ∉ confirmedVersions client registry name versions) := by
  rcases probe_cases client registry name versions with
    ⟨listed, -, hconfirmed, hprobe⟩ | ⟨ask, -, hconfirmed, hprobe⟩ | ⟨-, -, hprobe⟩
  · rcases hprobe with ⟨hpresent, -⟩ | ⟨missing', hmissing, hmem⟩
    · rw [hpresent] at h
      cases h
    · rw [hmissing] at h
      obtain rfl := ProbeOutcome.missingVersions.inj h
      obtain ⟨hheld, hnot⟩ := (hmem v).mp hv
      refine ⟨hheld, fun _ hcon => hnot ?_⟩
      rw [hconfirmed] at hcon
      exact of_decide_eq_true (List.mem_filter.mp hcon).2
  · rw [hprobe] at h
    obtain ⟨e, he, hev, hdenied⟩ := (probeEach_missing h v).mp hv
    refine ⟨?_, fun hcount hcon => ?_⟩
    · rw [← hev]
      exact List.mem_of_mem_take (mem_of_mem_zipIdx_take he)
    · rw [hconfirmed, mem_confirmedEach] at hcon
      obtain ⟨e', he', hev', hok⟩ := hcon
      rw [zipIdx_unique hcount he he' hev hev', hok] at hdenied
      cases hdenied
  · rcases hprobe with hprobe | ⟨e, hprobe⟩ <;>
    · rw [hprobe] at h
      cases h

theorem missingPackage_spec
    (h : (probePackage client registry name versions).1 = .missingPackage) :
    confirmedVersions client registry name versions = [] ∧
      packageConfirmed client registry name versions = false := by
  rcases probe_cases client registry name versions with
    ⟨listed, -, -, hprobe⟩ | ⟨ask, -, -, hprobe⟩ | ⟨hlisting, hconfirmed, -⟩
  · rcases hprobe with ⟨hpresent, -⟩ | ⟨missing, hmissing, -⟩
    · rw [hpresent] at h
      cases h
    · rw [hmissing] at h
      cases h
  · rw [hprobe] at h
    exact absurd h (probeEach_ne_missingPackage ask versions)
  · refine ⟨hconfirmed, ?_⟩
    unfold packageConfirmed
    rw [hlisting, hconfirmed]
    rfl

end Package

end Spec

end BatleHub.UpstreamAudit
