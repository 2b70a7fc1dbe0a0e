import BatleHub.ScanPasses

/-!
Containment of a version on a registry with a security profile: an administrator's
block (`services/admin/packages.rs`) and a flag pushed by a trusted source
(`entities/advisory.rs`, `services/flags.rs`). Either is kept in a store of its own,
which a scanner reads on every scan, and is also written into the stored verdict at
once. Both come with a finding that denies under every policy.
-/
namespace BatleHub.Containment

open LocalPackages Verdicts VerdictEvaluation ScanRecords ScanPasses

def blockListScanner : String := "block_list"

/-- Whether the administrators let a version be served. -/
inductive PackageStatus where
  | available
  | blocked (reason blockedBy : String)
  deriving DecidableEq, Repr

/-- What a flag asserts; an unknown kind is kept under the source's own name. -/
inductive FlagKind where
  | cve
  | malware
  | license
  | policy
  | other (name : String)
  deriving DecidableEq, Repr

def FlagKind.asStr : FlagKind → String
  | cve => "cve"
  | malware => "malware"
  | license => "license"
  | policy => "policy"
  | other name => name

/-- How hard a flag wants the proxy to react. -/
inductive FlagEffect where
  | inform
  | warn
  | gate
  | hardBlock
  deriving DecidableEq, Repr

def FlagEffect.asStr : FlagEffect → String
  | inform => "inform"
  | warn => "warn"
  | gate => "gate"
  | hardBlock => "hard_block"

def anyVersion : String := "*"

/-- One assertion about a version of the package, from one source. -/
structure PackageFlag where
  source : String
  externalId : String
  version : String
  kind : FlagKind
  effect : FlagEffect
  severity : Option Severity
  summary : String
  url : Option String
  firstSeen : DateTime
  expiresAt : Option DateTime
  revokedAt : Option DateTime
  deriving DecidableEq, Repr

/-- An instant with the fraction of a second it needs, as it is serialised. -/
def rfc3339Auto (t : DateTime) : String :=
  let nanos := (t.fmod nanosPerSecond).toNat
  let fraction :=
    if nanos = 0 then ""
    else if nanos % 1000000 = 0 then "." ++ padded 3 (nanos / 1000000)
    else if nanos % 1000 = 0 then "." ++ padded 6 (nanos / 1000)
    else "." ++ padded 9 nanos
  String.ofList (rfc3339Secs t).toList.dropLast ++ fraction ++ "Z"

namespace PackageFlag

/-- Neither revoked nor expired. -/
def isLive (flag : PackageFlag) (now : DateTime) : Bool :=
  flag.revokedAt.isNone && flag.expiresAt.all fun t => decide (now < t)

def covers (flag : PackageFlag) (version : String) : Bool :=
  decide (flag.version = anyVersion) || decide (flag.version = version)

def gateSeverity (flag : PackageFlag) : Severity := flag.severity.getD .high

def reference (flag : PackageFlag) : String := flag.source ++ ":" ++ flag.externalId

def raw (flag : PackageFlag) : Json :=
  .object [("source", .string flag.source), ("external_id", .string flag.externalId),
    ("effect", .string flag.effect.asStr), ("kind", .string flag.kind.asStr),
    ("url", flag.url.elim .null .string), ("first_seen", .string (rfc3339Auto flag.firstSeen))]

/-- The flag as the finding a verdict carries. -/
def asFinding (flag : PackageFlag) : Finding :=
  let (code, severity) :=
    match flag.effect with
    | .hardBlock => (ReasonCode.socVerdict, Severity.critical)
    | .gate => (.vulnerability, flag.gateSeverity)
    | .warn => (.vulnerability, .low)
    | .inform => (.vulnerability, .low)
  { Finding.new flagsScanner .socVerdict code severity
      (flag.kind.asStr ++ " flagged by " ++ flag.source ++ ": " ++ flag.summary) with
    reference := some flag.reference
    raw := flag.raw }

def isNamed (flag : PackageFlag) (source externalId : String) : Bool :=
  decide (flag.source = source) && decide (flag.externalId = externalId)

end PackageFlag

/-- `get_flag`: a flag is known by its source and the source's id for it. -/
def getFlag (flags : List PackageFlag) (source externalId : String) : Option PackageFlag :=
  flags.find? fun f => f.isNamed source externalId

/-- `upsert_flag`: an update keeps when the flag was first seen and takes it out of the
grave. -/
def upsertFlag (flag : PackageFlag) : List PackageFlag → List PackageFlag
  | [] => [flag]
  | f :: rest =>
    if f.isNamed flag.source flag.externalId then
      { flag with firstSeen := f.firstSeen, revokedAt := none } :: rest
    else f :: upsertFlag flag rest

/-- `revoke_flag`: the flag stays as a tombstone. -/
def revokeFlag (source externalId : String) (now : DateTime) :
    List PackageFlag → List PackageFlag
  | [] => []
  | f :: rest =>
    if f.isNamed source externalId && f.revokedAt.isNone then
      { f with revokedAt := some now } :: rest
    else f :: revokeFlag source externalId now rest

/-- What an administrator's block is in a verdict. -/
def blockFinding (reason blockedBy : String) : Finding :=
  Finding.new blockListScanner .blockList .blockList .critical
    ("blocked by " ++ blockedBy ++ ": " ++ reason)

/-- What the `block_list` scanner answers. -/
def scanStatus : PackageStatus → List Finding
  | .blocked reason blockedBy => [blockFinding reason blockedBy]
  | .available => []

/-- What the `flags` scanner answers. -/
def scanFlags (flags : List PackageFlag) (version : String) (now : DateTime) : List Finding :=
  (flags.filter fun f => f.isLive now && f.covers version).map PackageFlag.asFinding

/-- A verdict's block finding written, or taken out. Only the block moves the state. -/
def rewriteBlockFinding (v : Verdict) (blocked : Option (String × String)) (now : DateTime) :
    Verdict :=
  let kept := v.findings.filter fun f =>
    decide (f.scanner ≠ blockListScanner) && decide (f.kind ≠ .blockList)
  match blocked with
  | some (reason, blockedBy) =>
    { v with
      findings := kept ++ [blockFinding reason blockedBy]
      state := .denied
      reasonCodes := if .blockList ∈ v.reasonCodes then v.reasonCodes
        else v.reasonCodes ++ [.blockList]
      availableAt := none
      evaluatedAt := now }
  | none =>
    { v with
      findings := kept
      reasonCodes := v.reasonCodes.filter fun c => decide (c ≠ .blockList)
      evaluatedAt := now }

/-- A verdict denied by a flag; the flag's own previous finding goes. -/
def denyOne (flag : PackageFlag) (v : Verdict) (now : DateTime) : Verdict :=
  let kept := v.findings.filter fun f =>
    decide (f.scanner ≠ flagsScanner) || decide (f.reference ≠ some flag.reference)
  { v with
    findings := kept ++ [flag.asFinding]
    state := .denied
    reasonCodes := if .socVerdict ∈ v.reasonCodes then v.reasonCodes
      else v.reasonCodes ++ [.socVerdict]
    availableAt := none
    evaluatedAt := now }

section Flags

theorem getFlag_upsertFlag_same (flag : PackageFlag) (flags : List PackageFlag)
    (hlive : flag.revokedAt = none) :
    ∃ f, getFlag (upsertFlag flag flags) flag.source flag.externalId = some f ∧
      f.effect = flag.effect ∧ f.version = flag.version ∧ f.expiresAt = flag.expiresAt ∧
      f.revokedAt = none := by
  induction flags with
  | nil => exact ⟨flag, by simp [upsertFlag, getFlag, PackageFlag.isNamed], rfl, rfl, rfl, hlive⟩
  | cons f rest ih =>
    unfold upsertFlag
    by_cases hnamed : f.isNamed flag.source flag.externalId = true
    · rw [if_pos hnamed]
      refine ⟨{ flag with firstSeen := f.firstSeen, revokedAt := none }, ?_, rfl, rfl, rfl, rfl⟩
      simp [getFlag, PackageFlag.isNamed]
    · rw [if_neg hnamed]
      simp only [getFlag, List.find?_cons, hnamed] at ih ⊢
      exact ih

theorem isNamed_of_isNamed {f : PackageFlag} {source externalId source' externalId' : String}
    (h : f.isNamed source externalId = true) :
    f.isNamed source' externalId' =
      (decide (source = source') && decide (externalId = externalId')) := by
  simp only [PackageFlag.isNamed, Bool.and_eq_true, decide_eq_true_eq] at h
  simp only [PackageFlag.isNamed, h.1, h.2]

theorem getFlag_upsertFlag_other {flag : PackageFlag} (flags : List PackageFlag)
    {source externalId : String}
    (h : ¬ (flag.source = source ∧ flag.externalId = externalId)) :
    getFlag (upsertFlag flag flags) source externalId = getFlag flags source externalId := by
  have hnot : flag.isNamed source externalId = false := by
    simpa [PackageFlag.isNamed] using h
  induction flags with
  | nil => simp [upsertFlag, getFlag, hnot]
  | cons f rest ih =>
    unfold upsertFlag
    by_cases hnamed : f.isNamed flag.source flag.externalId = true
    · rw [if_pos hnamed]
      have hold : f.isNamed source externalId = false := by
        rw [isNamed_of_isNamed hnamed]
        simpa using h
      have hnew : ({ flag with firstSeen := f.firstSeen, revokedAt := none } :
          PackageFlag).isNamed source externalId = false := hnot
      simp only [getFlag, List.find?_cons, hnew, hold]
    · rw [if_neg hnamed]
      simp only [getFlag, List.find?_cons] at ih ⊢
      rw [ih]

theorem getFlag_revokeFlag_other (flags : List PackageFlag)
    {source externalId source' externalId' : String} (now : DateTime)
    (h : ¬ (source = source' ∧ externalId = externalId')) :
    getFlag (revokeFlag source externalId now flags) source' externalId' =
      getFlag flags source' externalId' := by
  induction flags with
  | nil => rfl
  | cons f rest ih =>
    unfold revokeFlag
    by_cases hnamed : (f.isNamed source externalId && f.revokedAt.isNone) = true
    · rw [if_pos hnamed]
      have hold : f.isNamed source' externalId' = false := by
        rw [Bool.and_eq_true] at hnamed
        rw [isNamed_of_isNamed hnamed.1]
        simpa using h
      have hnew : ({ f with revokedAt := some now } : PackageFlag).isNamed source' externalId' =
          false := hold
      simp only [getFlag, List.find?_cons, hnew, hold]
    · rw [if_neg hnamed]
      simp only [getFlag, List.find?_cons] at ih ⊢
      rw [ih]

end Flags

section Marks

/-- What contains a version: the block of its administrators, or a pushed flag. -/
inductive Key where
  | block
  | flag (source externalId : String)
  deriving DecidableEq, Repr

/-- The finding is the containment's own. -/
def Key.Marks : Key → Finding → Prop
  | block, f => f.scanner = blockListScanner ∧ f.kind = .blockList ∧ f.code = .blockList
  | flag source externalId, f =>
    f.scanner = flagsScanner ∧ f.kind = .socVerdict ∧ f.code = .socVerdict ∧
      f.reference = some (source ++ ":" ++ externalId)

/-- The verdict carries the containment. -/
def Contained (key : Key) (v : Verdict) : Prop := ∃ f ∈ v.findings, key.Marks f

variable {key : Key}

theorem Key.Marks.alwaysDenied {f : Finding} (h : key.Marks f) :
    f.code.isAlwaysDenied = true := by
  cases key with
  | block => simp [h.2.2, ReasonCode.isAlwaysDenied]
  | flag source externalId => simp [h.2.2.1, ReasonCode.isAlwaysDenied]

theorem Key.Marks.of_raised {f g : Finding} (h : key.Marks f) (hraised : Raised f g) :
    key.Marks g := by
  obtain ⟨severity, -, rfl⟩ := hraised
  cases key with
  | block => exact h
  | flag source externalId => exact h

/-- A containment's finding is no clock's. -/
theorem Key.Marks.mem_content {f : Finding} {findings : List Finding} (h : key.Marks f)
    (hmem : f ∈ findings) : f ∈ content findings := by
  apply VerdictEvaluation.mem_content.mpr
  cases key with
  | block => exact ⟨hmem, by rw [h.1]; decide, by rw [h.1]; decide⟩
  | flag source externalId => exact ⟨hmem, by rw [h.1]; decide, by rw [h.1]; decide⟩

/-- What an evaluation is given it keeps, and it denies for it. -/
theorem contained_evaluate {package : PackageMetadata} {findings : List Finding}
    {done : List String} {policy : SecurityPolicy} {now : DateTime} {last : Option DateTime}
    (h : ∃ f ∈ findings, key.Marks f) :
    Contained key (evaluate package findings done policy now last) ∧
      (evaluate package findings done policy now last).state = .denied := by
  obtain ⟨f, hmem, hmarks⟩ := h
  have hcontent := hmarks.mem_content hmem
  constructor
  · obtain ⟨g, hg, hraised⟩ : Carries (evaluate package findings done policy now last) f :=
      carries_evaluate hcontent
    exact ⟨g, (VerdictEvaluation.mem_content.mp hg).1, hmarks.of_raised hraised⟩
  · exact evaluate_denied_of_mem hcontent (classify_alwaysDenied hmarks.alwaysDenied)

theorem contained_fresh {v : Verdict} (h : Contained key v) (package : PackageMetadata)
    (policy : SecurityPolicy) (now : DateTime) :
    Contained key (fresh (some v) package policy now) ∧
      (fresh (some v) package policy now).state = .denied :=
  contained_evaluate h

/-- What a scan finds its record carries. -/
theorem contained_recordScan {stored : Option Verdict} {package : PackageMetadata}
    {policy : SecurityPolicy} {findings : List Finding} {done : List String} {now : DateTime}
    (h : ∃ f ∈ findings, key.Marks f) :
    Contained key (recordScan stored package policy findings done now) := by
  obtain ⟨f, hmem, hmarks⟩ := h
  exact (contained_evaluate ⟨f, mem_carryForward_of_found hmem, hmarks⟩).1

theorem contained_block (v : Verdict) (reason blockedBy : String) (now : DateTime) :
    Contained .block (rewriteBlockFinding v (some (reason, blockedBy)) now) := by
  refine ⟨blockFinding reason blockedBy, ?_, rfl, rfl, rfl⟩
  simp [rewriteBlockFinding]

/-- Rewriting the block leaves the flags. -/
theorem contained_rewriteBlockFinding {v : Verdict} (hkey : key ≠ .block) (h : Contained key v)
    (blocked : Option (String × String)) (now : DateTime) :
    Contained key (rewriteBlockFinding v blocked now) := by
  obtain ⟨f, hmem, hmarks⟩ := h
  have hkept : f ∈ v.findings.filter fun f =>
      decide (f.scanner ≠ blockListScanner) && decide (f.kind ≠ .blockList) := by
    cases key with
    | block => exact absurd rfl hkey
    | flag source externalId =>
      refine List.mem_filter.mpr ⟨hmem, ?_⟩
      rw [hmarks.1, hmarks.2.1]
      decide
  refine ⟨f, ?_, hmarks⟩
  cases blocked with
  | none => exact hkept
  | some blocked => exact List.mem_append_left _ hkept

theorem marks_asFinding {flag : PackageFlag} (h : flag.effect = .hardBlock) :
    (Key.flag flag.source flag.externalId).Marks flag.asFinding := by
  unfold PackageFlag.asFinding
  rw [h]
  exact ⟨rfl, rfl, rfl, rfl⟩

theorem contained_denied (flag : PackageFlag) (h : flag.effect = .hardBlock) (v : Verdict)
    (now : DateTime) : Contained (.flag flag.source flag.externalId) (denyOne flag v now) :=
  ⟨flag.asFinding, by simp [denyOne], marks_asFinding h⟩

/-- A denial by a flag leaves the block and the other flags; where another has the same
reference its place is taken. -/
theorem contained_denyOne {v : Verdict} {flag : PackageFlag} (heffect : flag.effect = .hardBlock)
    (h : Contained key v) (now : DateTime) : Contained key (denyOne flag v now) := by
  obtain ⟨f, hmem, hmarks⟩ := h
  by_cases hdropped : f.scanner = flagsScanner ∧ f.reference = some flag.reference
  · cases key with
    | block =>
      rw [hmarks.1] at hdropped
      exact absurd hdropped.1 (by decide)
    | flag source externalId =>
      obtain ⟨hscanner, hkind, hcode, href⟩ := marks_asFinding heffect
      have hsame : flag.source ++ ":" ++ flag.externalId = source ++ ":" ++ externalId :=
        Option.some.inj (hdropped.2.symm.trans hmarks.2.2.2)
      refine ⟨flag.asFinding, by simp [denyOne], hscanner, hkind, hcode, ?_⟩
      rw [href, hsame]
  · refine ⟨f, ?_, hmarks⟩
    apply List.mem_append_left
    refine List.mem_filter.mpr ⟨hmem, ?_⟩
    rw [not_and_or] at hdropped
    simpa using hdropped

/-- The scanner sees the flag that is there. -/
theorem exists_marks_scanFlags {flags : List PackageFlag} {source externalId version : String}
    {now : DateTime} {flag : PackageFlag} (hget : getFlag flags source externalId = some flag)
    (heffect : flag.effect = .hardBlock) (hlive : flag.isLive now = true)
    (hcovers : flag.covers version = true) :
    ∃ f ∈ scanFlags flags version now, (Key.flag source externalId).Marks f := by
  have hmem : flag ∈ flags := List.mem_of_find?_eq_some hget
  have hnamed : flag.source = source ∧ flag.externalId = externalId := by
    simpa [PackageFlag.isNamed] using List.find?_some hget
  refine ⟨flag.asFinding, ?_, ?_⟩
  · apply List.mem_map_of_mem
    exact List.mem_filter.mpr ⟨hmem, by rw [hlive, hcovers]; rfl⟩
  · rw [← hnamed.1, ← hnamed.2]
    exact marks_asFinding heffect

end Marks

end BatleHub.Containment
