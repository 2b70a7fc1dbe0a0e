import BatleHub.ScanRecords
import BatleHub.Lib.Runs

/-!
The worker's passes over one version (`services/scan_worker.rs`): a job runs its
scanners and its enrichers and records what they said; a job whose attempts are spent
is closed with an error for every required scanner. What a scanner said stays until
that scanner answers again, as long as no pass marks a scanner done that did not run.
-/
namespace BatleHub.ScanPasses

open LocalPackages Verdicts VerdictEvaluation ScanRecords Lib.Runs

/-- Why a scanner did not answer. -/
inductive ScannerError where
  | timeout
  | upstream (e : String)
  | output (e : String)
  | crashed (e : String)
  | unsupported (e : String)
  | other (e : String)
  deriving DecidableEq, Repr

namespace ScannerError

def text : ScannerError → String
  | timeout => "scanner timed out"
  | upstream e => "scanner could not reach its upstream: " ++ e
  | output e => "scanner output could not be read: " ++ e
  | crashed e => "scanner crashed: " ++ e
  | unsupported e => "scanner input unavailable: " ++ e
  | other e => e

def code : ScannerError → ReasonCode
  | unsupported _ => .scannerUnsupported
  | _ => .scannerError

end ScannerError

/-- One scanner of a job that supports the registry's kind, and what its scan comes to;
one that takes too long comes to a timeout. -/
structure ScannerRun where
  name : String
  needsArtifact : Bool
  outcome : Except ScannerError (List Finding)

/-- One enricher of a job: what it leaves of the findings, and whether it answered. -/
structure EnricherRun where
  name : String
  enrich : List Finding → List Finding
  answered : Bool

/-- The findings and the scanners done so far. -/
abbrev Progress := List Finding × List String

def errorFinding (scanner : String) (code : ReasonCode) (summary : String) : Finding :=
  Finding.new scanner .scannerError code .high summary

/-- One scanner: what it found, or why it did not answer. -/
def runScanner (artifactUnavailable : Bool) (progress : Progress) (scanner : ScannerRun) :
    Progress :=
  if scanner.needsArtifact && artifactUnavailable then
    (progress.1 ++ [errorFinding scanner.name .scannerUnsupported
      "the artifact bytes could not be obtained for scanning"], progress.2)
  else
    match scanner.outcome with
    | .ok found => (progress.1 ++ found, progress.2 ++ [scanner.name])
    | .error e => (progress.1 ++ [errorFinding scanner.name e.code e.text], progress.2)

def enrichOne (progress : Progress) (enricher : EnricherRun) : Progress :=
  (enricher.enrich progress.1,
    if enricher.answered then progress.2 ++ [enricher.name] else progress.2)

def runJob (scanners : List ScannerRun) (artifactUnavailable : Bool)
    (enrichers : List EnricherRun) : Progress :=
  enrichers.foldl enrichOne (scanners.foldl (runScanner artifactUnavailable) ([], []))

/-- What a spent job says of a required scanner. -/
def exhaustedFinding (maxAttempts timeoutSecs : ℕ) (scanner : String) : Finding :=
  errorFinding scanner .scannerError
    ("no attempt out of " ++ toString maxAttempts ++ " completed within " ++
      toString timeoutSecs ++ "s")

/-- One pass of the worker over the version. Nothing is recorded when the registry has
left the configuration or the store does not answer. -/
inductive Pass where
  | job (policy : SecurityPolicy) (package : PackageMetadata) (scanners : List ScannerRun)
      (artifactUnavailable : Bool) (enrichers : List EnricherRun) (now : DateTime)
  | exhausted (policy : SecurityPolicy) (package : PackageMetadata)
      (maxAttempts timeoutSecs : ℕ) (now : DateTime)
  | unrecorded

namespace Pass

/-- The policy a pass judges under. -/
def policy? : Pass → Option SecurityPolicy
  | job policy _ _ _ _ _ => some policy
  | exhausted policy _ _ _ _ => some policy
  | unrecorded => none

/-- The pass ran the scanner's scan, and it returned. -/
def Answered : Pass → String → Prop
  | job _ _ scanners artifactUnavailable _ _, s =>
    ∃ scanner ∈ scanners, scanner.name = s ∧
      (scanner.needsArtifact && artifactUnavailable) = false ∧
      ∃ found, scanner.outcome = .ok found
  | exhausted _ _ _ _ _, _ => False
  | unrecorded, _ => False

/-- The pass lists the name as done although no scan of that name returned. -/
def MarksUnrun : Pass → String → Prop
  | job policy package scanners artifactUnavailable enrichers now, s =>
    (∃ enricher ∈ enrichers, enricher.answered = true ∧ enricher.name = s) ∧
      ¬ (job policy package scanners artifactUnavailable enrichers now).Answered s
  | exhausted policy _ _ _ _, s => s ∈ policy.requiredScanners
  | unrecorded, _ => False

end Pass

/-- The stored verdict after a pass. -/
def step (stored : Option Verdict) : Pass → Option Verdict
  | .job policy package scanners artifactUnavailable enrichers now =>
    let found := runJob scanners artifactUnavailable enrichers
    some (recordScan stored package policy found.1 found.2 now)
  | .exhausted policy package maxAttempts timeoutSecs now =>
    some (recordScan stored package policy
      (policy.requiredScanners.map (exhaustedFinding maxAttempts timeoutSecs))
      policy.requiredScanners now)
  | .unrecorded => stored

section Done
variable {artifactUnavailable : Bool}

/-- A scanner adds findings and takes none away. -/
theorem mem_runScanner {artifactUnavailable : Bool} {progress : Progress} {scanner : ScannerRun}
    {f : Finding} (h : f ∈ progress.1) : f ∈ (runScanner artifactUnavailable progress scanner).1 := by
  unfold runScanner
  split
  · exact List.mem_append_left _ h
  · split
    · exact List.mem_append_left _ h
    · exact List.mem_append_left _ h

theorem mem_foldl_runScanner (scanners : List ScannerRun) (progress : Progress) (s : String) :
    s ∈ (scanners.foldl (runScanner artifactUnavailable) progress).2 ↔
      s ∈ progress.2 ∨ ∃ scanner ∈ scanners, scanner.name = s ∧
        (scanner.needsArtifact && artifactUnavailable) = false ∧
        ∃ found, scanner.outcome = .ok found := by
  induction scanners generalizing progress with
  | nil => simp
  | cons scanner rest ih =>
    rw [List.foldl_cons, ih]
    have hone : s ∈ (runScanner artifactUnavailable progress scanner).2 ↔
        s ∈ progress.2 ∨ (scanner.name = s ∧
          (scanner.needsArtifact && artifactUnavailable) = false ∧
          ∃ found, scanner.outcome = .ok found) := by
      unfold runScanner
      cases hbytes : scanner.needsArtifact && artifactUnavailable with
      | true => simp
      | false =>
        cases houtcome : scanner.outcome with
        | ok found => simp [eq_comm]
        | error e => simp
    rw [hone, List.exists_mem_cons_iff, or_assoc]

theorem mem_foldl_enrichOne (enrichers : List EnricherRun) (progress : Progress) (s : String) :
    s ∈ (enrichers.foldl enrichOne progress).2 ↔
      s ∈ progress.2 ∨
        ∃ enricher ∈ enrichers, enricher.answered = true ∧ enricher.name = s := by
  induction enrichers generalizing progress with
  | nil => simp
  | cons enricher rest ih =>
    rw [List.foldl_cons, ih]
    have hone : s ∈ (enrichOne progress enricher).2 ↔
        s ∈ progress.2 ∨ (enricher.answered = true ∧ enricher.name = s) := by
      unfold enrichOne
      cases enricher.answered <;> simp [eq_comm]
    rw [hone, List.exists_mem_cons_iff, or_assoc]

end Done

/-- A scanner's own word, not the clock's and not an error. -/
def Lasting (f : Finding) : Prop :=
  f.kind ≠ .age ∧ f.kind ≠ .pending ∧ f.kind ≠ .scannerError

/-- The word of the SOC that no scan takes back. -/
def Permanent (f : Finding) : Prop := f.kind = .socVerdict ∧ f.scanner ≠ flagsScanner

/-- No scanner with a lasting finding in the stored verdict is marked done unrun. -/
def MarksHonestly (stored : Option Verdict) (pass : Pass) : Prop :=
  ∀ v, stored = some v → ∀ f ∈ v.findings, Lasting f → ¬ Permanent f →
    ¬ pass.MarksUnrun f.scanner

section Keeping
variable {f : Finding}

theorem lasting_of_raised {g : Finding} (hraised : Raised f g) (h : Lasting f) : Lasting g := by
  unfold Lasting
  rw [hraised.kind_eq]
  exact h

theorem permanent_iff_of_raised {g : Finding} (hraised : Raised f g) :
    Permanent g ↔ Permanent f := by
  unfold Permanent
  rw [hraised.kind_eq, hraised.scanner_eq]

/-- The finding is stored, and its scanner is marked done or it stays without that. -/
def Recorded (f : Finding) (stored : Option Verdict) : Prop :=
  ∃ v, stored = some v ∧ Carries v f ∧ (Permanent f ∨ f.scanner ∈ v.scannersDone)

/-- A record under which the scanner does not answer keeps what it had said. -/
theorem recorded_recordScan {v : Verdict} {package : PackageMetadata} {policy : SecurityPolicy}
    {findings : List Finding} {done : List String} {now : DateTime} (h : Recorded f (some v))
    (hdone : Permanent f ∨ f.scanner ∉ done) :
    Recorded f (some (recordScan (some v) package policy findings done now)) ∧
      (classify policy f = some .denied →
        (recordScan (some v) package policy findings done now).state = .denied) := by
  obtain ⟨v', hv', ⟨g, hg, hraised⟩, hmark⟩ := h
  obtain rfl := Option.some.inj hv'
  obtain ⟨hmem, hclock⟩ := mem_content.mp hg
  have hcarried : g ∈ (carryForward (some v) findings done).1 := by
    by_cases hperm : Permanent f
    · have hsoc := (permanent_iff_of_raised hraised).mpr hperm
      exact mem_carryForward_of_soc hmem hsoc.1 hsoc.2
    · apply mem_carryForward_of_unanswered hmem
      · rw [hraised.scanner_eq]
        exact hmark.resolve_left hperm
      · rw [hraised.scanner_eq]
        exact hdone.resolve_left hperm
  have hcontent : g ∈ content (carryForward (some v) findings done).1 :=
    mem_content.mpr ⟨hcarried, hclock⟩
  constructor
  · refine ⟨_, rfl, ?_, ?_⟩
    · obtain ⟨g', hg', hraised'⟩ : Carries (recordScan (some v) package policy findings done now)
        g := carries_evaluate hcontent
      exact ⟨g', hg', hraised.trans hraised'⟩
    · rcases hmark with hperm | hmark
      · exact .inl hperm
      · right
        rw [scannersDone_recordScan]
        exact .inr ⟨v, rfl, hmark⟩
  · intro hdenied
    exact evaluate_denied_of_mem hcontent (classify_denied_of_raised hraised hdenied)

/-- A scanner that did not answer is not done, where the pass marks honestly. -/
theorem notMem_done_of_unanswered {policy : SecurityPolicy} {package : PackageMetadata}
    {scanners : List ScannerRun} {artifactUnavailable : Bool} {enrichers : List EnricherRun}
    {now : DateTime} {s : String}
    (hanswered : ¬ (Pass.job policy package scanners artifactUnavailable enrichers
      now).Answered s)
    (hhonest : ¬ (Pass.job policy package scanners artifactUnavailable enrichers
      now).MarksUnrun s) :
    s ∉ (runJob scanners artifactUnavailable enrichers).2 := by
  rw [runJob, mem_foldl_enrichOne, mem_foldl_runScanner]
  intro hcase
  rcases hcase with (hnil | hran) | henriched
  · simp at hnil
  · exact hanswered hran
  · exact hhonest ⟨henriched, hanswered⟩

/-- One pass: the finding stays, and it denies where the pass's policy says so. -/
theorem step_keeps {stored : Option Verdict} {pass : Pass} (hlasting : Lasting f)
    (h : Recorded f stored) (hhonest : MarksHonestly stored pass)
    (hanswered : Permanent f ∨ ¬ pass.Answered f.scanner) :
    Recorded f (step stored pass) ∧
      ∀ policy v, pass.policy? = some policy → classify policy f = some .denied →
        step stored pass = some v → v.state = .denied := by
  obtain ⟨v, rfl, hcarries, hmark⟩ := h
  have hunrun : Permanent f ∨ ¬ pass.MarksUnrun f.scanner := by
    obtain ⟨g, hg, hraised⟩ := hcarries
    by_cases hperm : Permanent f
    · exact .inl hperm
    · right
      rw [← hraised.scanner_eq]
      apply hhonest v rfl g (mem_content.mp hg).1 (lasting_of_raised hraised hlasting)
      rw [permanent_iff_of_raised hraised]
      exact hperm
  have hrecorded : Recorded f (some v) := ⟨v, rfl, hcarries, hmark⟩
  cases pass with
  | job policy package scanners artifactUnavailable enrichers now =>
    have hdone : Permanent f ∨
        f.scanner ∉ (runJob scanners artifactUnavailable enrichers).2 := by
      by_cases hperm : Permanent f
      · exact .inl hperm
      · exact .inr (notMem_done_of_unanswered (hanswered.resolve_left hperm)
          (hunrun.resolve_left hperm))
    obtain ⟨hkept, hdenied⟩ := recorded_recordScan hrecorded hdone
    refine ⟨hkept, ?_⟩
    intro policy' v' hpolicy hclassify hv'
    obtain rfl := Option.some.inj hpolicy
    obtain rfl := Option.some.inj hv'
    exact hdenied hclassify
  | exhausted policy package maxAttempts timeoutSecs now =>
    obtain ⟨hkept, hdenied⟩ := recorded_recordScan hrecorded hunrun
    refine ⟨hkept, ?_⟩
    intro policy' v' hpolicy hclassify hv'
    obtain rfl := Option.some.inj hpolicy
    obtain rfl := Option.some.inj hv'
    exact hdenied hclassify
  | unrecorded =>
    refine ⟨hrecorded, ?_⟩
    intro policy' v' hpolicy
    exact absurd hpolicy (by simp [Pass.policy?])

/-- What a pass in which the scanner answered stores is recorded. -/
theorem recorded_of_answered {stored : Option Verdict} {pass : Pass} {v : Verdict}
    (hv : step stored pass = some v) (hmem : f ∈ v.findings) (hlasting : Lasting f)
    (hanswered : pass.Answered f.scanner) : Recorded f (some v) := by
  cases pass with
  | job policy package scanners artifactUnavailable enrichers now =>
    obtain rfl := Option.some.inj hv
    refine ⟨_, rfl, ⟨f, ?_, Raised.refl f⟩, .inr ?_⟩
    · exact mem_content_of_mem_evaluate hmem hlasting.1 hlasting.2.1
    · rw [scannersDone_recordScan]
      left
      rw [runJob, mem_foldl_enrichOne, mem_foldl_runScanner]
      exact .inl (.inr hanswered)
  | exhausted policy package maxAttempts timeoutSecs now => exact hanswered.elim
  | unrecorded => exact hanswered.elim

/-- Runs of passes: while its scanner does not answer, a finding stays recorded. -/
theorem run_recorded (stored : Option Verdict) (passes : List Pass) (hlasting : Lasting f)
    (h : Recorded f stored) (hanswered : Permanent f ∨ ∀ pass ∈ passes, ¬ pass.Answered f.scanner)
    (hhonest : Guarded step MarksHonestly stored passes) :
    Recorded f (run step stored passes) := by
  have hsilent : ∀ pass ∈ passes, Permanent f ∨ ¬ pass.Answered f.scanner := by
    intro pass hpass
    rcases hanswered with hperm | hnone
    · exact .inl hperm
    · exact .inr (hnone pass hpass)
  apply run_keeps (fun stored pass => MarksHonestly stored pass ∧
    (Permanent f ∨ ¬ pass.Answered f.scanner)) (Recorded f) ?_ stored passes h
    (guarded_and_forall _ _ _ _ hhonest hsilent)
  intro stored pass hrecorded hguard
  exact (step_keeps hlasting hrecorded hguard.1 hguard.2).1

/-- A scanner that did not answer revokes nothing: what was stored under it stays until
it answers, and denies whenever the pass that judged last would deny for it. -/
theorem finding_kept_until_answer (stored : Option Verdict) (first : Pass) (rest : List Pass)
    (v : Verdict) (f : Finding) (hfirst : step stored first = some v) (hmem : f ∈ v.findings)
    (hlasting : Lasting f) (hfound : first.Answered f.scanner)
    (hrest : Permanent f ∨ ∀ pass ∈ rest, ¬ pass.Answered f.scanner)
    (hhonest : Guarded step MarksHonestly (some v) rest) :
    ∃ w, run step (some v) rest = some w ∧ (∃ g ∈ w.findings, Raised f g) ∧
      ∀ pass policy, rest.getLast? = some pass → pass.policy? = some policy →
        classify policy f = some .denied → w.state = .denied := by
  have hrecorded := recorded_of_answered hfirst hmem hlasting hfound
  obtain ⟨w, hw, ⟨g, hg, hraised⟩, -⟩ :=
    run_recorded (some v) rest hlasting hrecorded hrest hhonest
  refine ⟨w, hw, ⟨g, (mem_content.mp hg).1, hraised⟩, ?_⟩
  intro pass policy hlast hpolicy hdenied
  -- cut the run before its last pass: the finding is recorded there
  obtain ⟨before, rfl⟩ := List.getLast?_eq_some_iff.mp hlast
  obtain ⟨hbefore, hpass, -⟩ := (guarded_append _ _ _ _).mp hhonest
  have hsilent : Permanent f ∨ ∀ p ∈ before, ¬ p.Answered f.scanner := by
    rcases hrest with hperm | hnone
    · exact .inl hperm
    · exact .inr fun p hp => hnone p (List.mem_append_left _ hp)
  have hlastSilent : Permanent f ∨ ¬ pass.Answered f.scanner := by
    rcases hrest with hperm | hnone
    · exact .inl hperm
    · exact .inr (hnone pass (by simp))
  have hthere := run_recorded (some v) before hlasting hrecorded hsilent hbefore
  rw [run_append] at hw
  exact (step_keeps hlasting hthere hpass hlastSilent).2 policy w hpolicy hdenied hw

end Keeping

section Spent

def profile : SecurityPolicy := SecurityPolicy.defaultsFor "npm"

/-- The scan that finds it. -/
def foundPass : Pass := .job profile leftpad [⟨"osv", false, .ok [criticalFinding]⟩] false [] (2 * day)

/-- A rescan during an outage. -/
def outagePass : Pass :=
  .job profile leftpad [⟨"osv", false, .error (.upstream "down")⟩] false [] (2 * day)

/-- A rescan whose attempts are spent. -/
def spentPass : Pass := .exhausted profile leftpad 3 60 (2 * day)

theorem finding_kept_through_outage :
    ∃ w, run step (step none foundPass) [outagePass] = some w ∧
      (∃ g ∈ w.findings, Raised criticalFinding g) ∧ w.state = .denied := by
  have hmem : criticalFinding ∈ (recordScan none leftpad profile [criticalFinding] ["osv"]
      (2 * day)).findings := List.mem_cons_self
  have hhonest : Guarded step MarksHonestly (step none foundPass) [outagePass] := by
    refine ⟨?_, trivial⟩
    intro v hv f hf hlasting hperm hmarks
    obtain ⟨⟨enricher, henricher, -⟩, -⟩ := hmarks
    exact absurd henricher (by simp)
  have hsilent : ∀ pass ∈ [outagePass], ¬ pass.Answered "osv" := by
    intro pass hpass hanswered
    obtain rfl := List.mem_singleton.mp hpass
    obtain ⟨scanner, hscanner, -, -, found, hfound⟩ := hanswered
    obtain rfl := List.mem_singleton.mp hscanner
    exact absurd hfound (by simp)
  obtain ⟨w, hw, hkept, hdenied⟩ := finding_kept_until_answer none foundPass [outagePass] _
    criticalFinding rfl hmem ⟨by decide, by decide, by decide⟩
    ⟨_, List.mem_singleton.mpr rfl, rfl, rfl, _, rfl⟩ (.inr hsilent) hhonest
  exact ⟨w, hw, hkept, hdenied outagePass profile rfl rfl rfl⟩

/-- The spent job lists the required scanner as done: the denial is gone, and the
version, being mature, is served. -/
theorem denial_lost_to_spent_job :
    ∃ v w, step none foundPass = some v ∧ criticalFinding ∈ v.findings ∧ v.state = .denied ∧
      foundPass.Answered criticalFinding.scanner ∧
      ¬ spentPass.Answered criticalFinding.scanner ∧
      run step (some v) [spentPass] = some w ∧
      (¬ ∃ g ∈ w.findings, Raised criticalFinding g) ∧ w.isServed = true := by
  refine ⟨_, _, rfl, List.mem_cons_self, rfl, ⟨_, List.mem_singleton.mpr rfl, rfl, rfl, _, rfl⟩,
    id, rfl, ?_, rfl⟩
  intro hkept
  obtain ⟨g, hg, hraised⟩ := hkept
  obtain rfl := List.mem_singleton.mp hg
  exact absurd hraised.code_eq (by decide)

end Spent

end BatleHub.ScanPasses
