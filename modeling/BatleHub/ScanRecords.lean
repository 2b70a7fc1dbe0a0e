import BatleHub.VerdictEvaluation

/-!
The two writers of a stored verdict (`services/verdict.rs`). The read path judges the
stored findings again and writes the result back on first sight or on a change. The
worker's record carries forward what the scanners that did not answer had said. A
finding is carried up to a raise of its severity, which is all an evaluation does to
what is not the clock's.
-/
namespace BatleHub.ScanRecords

open LocalPackages Verdicts VerdictEvaluation

def flagsScanner : String := "flags"

/-- What `current` answers: the stored findings judged now. -/
def fresh (stored : Option Verdict) (package : PackageMetadata) (policy : SecurityPolicy)
    (now : DateTime) : Verdict :=
  match stored with
  | none => evaluate package [] [] policy now none
  | some v => evaluate package v.findings v.scannersDone policy now v.lastScannedAt

/-- What `current` writes: its answer, on first sight or when state or codes moved. -/
def writtenBack (stored : Option Verdict) (answer : Verdict) : Option Verdict :=
  match stored with
  | none => some answer
  | some previous =>
    if previous.state ≠ answer.state ∨ previous.reasonCodes ≠ answer.reasonCodes then some answer
    else none

/-- What is written back is the answer. -/
theorem writtenBack_eq_some {stored : Option Verdict} {answer written : Verdict}
    (h : writtenBack stored answer = some written) : written = answer := by
  unfold writtenBack at h
  split at h
  · exact (Option.some.inj h).symm
  · split at h
    · exact (Option.some.inj h).symm
    · simp at h

/-- The verdict of a version just published here: dated now, nothing scanned. -/
def firstSightLocal (package : PackageId) (policy : SecurityPolicy) (now : DateTime) : Verdict :=
  evaluate ⟨coordinateKey package, some now⟩ [] [] policy now none

/-- The SOC's word stays, unless the `flags` scanner answered and it is its own. -/
def socKept (done : List String) (f : Finding) : Bool :=
  decide (f.kind = .socVerdict) && !(decide (flagsScanner ∈ done) && decide (f.scanner = flagsScanner))

/-- One scanner of the previous verdict: where it did not answer now, its findings and
its mark are taken over. -/
def carryScanner (prev : Verdict) (carried : List Finding × List String) (s : String) :
    List Finding × List String :=
  if s ∈ carried.2 then carried
  else
    (carried.1 ++ prev.findings.filter fun f =>
        decide (f.scanner = s) && decide (f.kind ≠ .socVerdict),
      carried.2 ++ [s])

def carryForward (stored : Option Verdict) (findings : List Finding) (done : List String) :
    List Finding × List String :=
  match stored with
  | none => (findings, done)
  | some prev =>
    prev.scannersDone.foldl (carryScanner prev)
      (findings ++ prev.findings.filter (socKept done), done)

/-- The verdict `record_scan` stores for what the worker found. -/
def recordScan (stored : Option Verdict) (package : PackageMetadata) (policy : SecurityPolicy)
    (findings : List Finding) (done : List String) (now : DateTime) : Verdict :=
  let carried := carryForward stored findings done
  evaluate package carried.1 carried.2 policy now (some now)

/-- A critical vulnerability, as the `osv` scanner reports it. -/
def criticalFinding : Finding :=
  { Finding.new "osv" .vulnerability .vulnerability .critical "remote code execution" with
    reference := some "GHSA-0000" }

section Carrying
variable {prev : Verdict}

theorem mem_foldl_carryScanner_done (names : List String) (carried : List Finding × List String)
    (s : String) :
    s ∈ (names.foldl (carryScanner prev) carried).2 ↔ s ∈ carried.2 ∨ s ∈ names := by
  induction names generalizing carried with
  | nil => simp
  | cons name rest ih =>
    rw [List.foldl_cons, ih]
    have hone : s ∈ (carryScanner prev carried name).2 ↔ s ∈ carried.2 ∨ s = name := by
      unfold carryScanner
      split
      · rename_i hmem
        constructor
        · exact .inl
        · intro hcase
          rcases hcase with hs | rfl
          · exact hs
          · exact hmem
      · simp
    rw [hone, List.mem_cons, or_assoc]

theorem mem_foldl_carryScanner (names : List String) (carried : List Finding × List String)
    (f : Finding) :
    f ∈ (names.foldl (carryScanner prev) carried).1 ↔
      f ∈ carried.1 ∨ f ∈ prev.findings ∧ f.kind ≠ .socVerdict ∧ f.scanner ∈ names ∧
        f.scanner ∉ carried.2 := by
  induction names generalizing carried with
  | nil => simp
  | cons name rest ih =>
    rw [List.foldl_cons, ih]
    unfold carryScanner
    split
    · rename_i hmem
      -- the name is done already: nothing of it is taken over, now or before
      have hskip : f.scanner ∈ rest ∧ f.scanner ∉ carried.2 ↔
          f.scanner ∈ name :: rest ∧ f.scanner ∉ carried.2 := by
        constructor
        · intro h
          exact ⟨List.mem_cons_of_mem name h.1, h.2⟩
        · intro h
          rcases List.mem_cons.mp h.1 with hname | hrest
          · exact absurd (hname ▸ hmem) h.2
          · exact ⟨hrest, h.2⟩
      rw [hskip]
    · rename_i hmem
      by_cases hname : f.scanner = name
      · subst hname
        simp only [List.mem_append, List.mem_filter, decide_true, Bool.true_and,
          decide_eq_true_eq, List.mem_cons, true_or, List.not_mem_nil, or_false,
          not_true_eq_false, or_true, and_false, hmem, not_false_eq_true, and_true]
      · simp [hname]

theorem scannersDone_recordScan (stored : Option Verdict) (package : PackageMetadata)
    (policy : SecurityPolicy) (findings : List Finding) (done : List String) (now : DateTime)
    (s : String) :
    s ∈ (recordScan stored package policy findings done now).scannersDone ↔
      s ∈ done ∨ ∃ v, stored = some v ∧ s ∈ v.scannersDone := by
  show s ∈ (carryForward stored findings done).2 ↔ _
  cases stored with
  | none => simp [carryForward]
  | some v => simp [carryForward, mem_foldl_carryScanner_done]

theorem mem_carryForward_of_found {stored : Option Verdict} {findings : List Finding}
    {done : List String} {f : Finding} (h : f ∈ findings) :
    f ∈ (carryForward stored findings done).1 := by
  cases stored with
  | none => exact h
  | some v =>
    rw [carryForward, mem_foldl_carryScanner]
    exact .inl (List.mem_append_left _ h)

/-- What a scanner that did not answer had said is carried forward. -/
theorem mem_carryForward_of_unanswered {findings : List Finding} {done : List String}
    {f : Finding} (hmem : f ∈ prev.findings) (hmark : f.scanner ∈ prev.scannersDone)
    (hdone : f.scanner ∉ done) : f ∈ (carryForward (some prev) findings done).1 := by
  rw [carryForward, mem_foldl_carryScanner]
  by_cases hsoc : f.kind = .socVerdict
  · left
    apply List.mem_append_right
    refine List.mem_filter.mpr ⟨hmem, ?_⟩
    have hflags : ¬ (flagsScanner ∈ done ∧ f.scanner = flagsScanner) := by
      intro h
      exact hdone (h.2 ▸ h.1)
    rw [not_and_or] at hflags
    simpa [socKept, hsoc] using hflags
  · exact .inr ⟨hmem, hsoc, hmark, hdone⟩

/-- A SOC finding of another scanner than `flags` is always carried forward. -/
theorem mem_carryForward_of_soc {findings : List Finding} {done : List String} {f : Finding}
    (hmem : f ∈ prev.findings) (hsoc : f.kind = .socVerdict) (hflags : f.scanner ≠ flagsScanner) :
    f ∈ (carryForward (some prev) findings done).1 := by
  rw [carryForward, mem_foldl_carryScanner]
  left
  apply List.mem_append_right
  refine List.mem_filter.mpr ⟨hmem, ?_⟩
  simp [socKept, hsoc, hflags]

end Carrying

section Keeping
variable {package : PackageMetadata} {findings : List Finding} {done : List String}
  {policy : SecurityPolicy} {now : DateTime} {last : Option DateTime}

/-- The verdict has the finding, at its severity or a higher one. -/
def Carries (v : Verdict) (f : Finding) : Prop := ∃ g ∈ content v.findings, Raised f g

theorem carries_evaluate {f : Finding} (h : f ∈ content findings) :
    Carries (evaluate package findings done policy now last) f := by
  obtain ⟨g, hg, hraised⟩ : ∃ g ∈ escalate policy (content findings), Raised f g :=
    exists_raised_of_mem h
  refine ⟨g, ?_, hraised⟩
  show g ∈ content (judged package findings done policy now)
  rw [content_judged]
  exact hg

/-- Judging a verdict again keeps what it carries. -/
theorem Carries.evaluate {v : Verdict} {f : Finding} (h : Carries v f) :
    Carries (evaluate package v.findings done policy now last) f := by
  obtain ⟨g, hg, hraised⟩ := h
  obtain ⟨g', hg', hraised'⟩ : Carries (VerdictEvaluation.evaluate package v.findings done policy
    now last) g := carries_evaluate hg
  exact ⟨g', hg', hraised.trans hraised'⟩

theorem Carries.denied {v : Verdict} {f : Finding} (h : Carries v f)
    (hdenied : classify policy f = some .denied) :
    (VerdictEvaluation.evaluate package v.findings done policy now last).state = .denied := by
  obtain ⟨g, hg, hraised⟩ := h
  exact evaluate_denied_of_mem hg (classify_denied_of_raised hraised hdenied)

/-- The clock's findings are of the clock's kinds. -/
theorem mem_content_of_mem_evaluate {f : Finding}
    (h : f ∈ (evaluate package findings done policy now last).findings) (hage : f.kind ≠ .age)
    (hpending : f.kind ≠ .pending) :
    f ∈ content (evaluate package findings done policy now last).findings := by
  have hsplit : f ∈ escalate policy (content findings) ∨ f ∈ ageFindings package policy now ∨
      f ∈ pendingFindings policy done := by
    simpa [evaluate, judged] using h
  rcases hsplit with hkept | hf | hf
  · show f ∈ content (judged package findings done policy now)
    rw [content_judged]
    exact hkept
  · exfalso
    apply hage
    obtain rfl | ⟨published, rfl⟩ := ageFindings_cases hf
    · rfl
    · rfl
  · obtain ⟨s, -, rfl⟩ := List.mem_map.mp hf
    exact absurd rfl hpending

end Keeping

end BatleHub.ScanRecords
