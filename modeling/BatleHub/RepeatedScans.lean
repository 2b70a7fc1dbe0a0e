import BatleHub.ScanRecords
import BatleHub.VerdictOrder

/-!
The same scan recorded twice (`services/verdict.rs`, `record_scan`). A record takes over
what was stored for a scanner that did not answer, and the stored findings of that scanner
may be those of this very scan: its error, or a word of the SOC it brings. Each repeat adds
them once more, and changes nothing else.
-/
namespace BatleHub.RepeatedScans

open LocalPackages Verdicts VerdictEvaluation ScanRecords VerdictOrder

theorem filter_or_perm {α : Type*} {p q : α → Bool} {l : List α}
    (h : ∀ x ∈ l, p x = true → q x = false) :
    (l.filter fun x => p x || q x).Perm (l.filter p ++ l.filter q) := by
  have hsplit := (List.filter_append_perm p (l.filter fun x => p x || q x)).symm
  rw [List.filter_filter, List.filter_filter] at hsplit
  have hleft : l.filter (fun x => p x && (p x || q x)) = l.filter p := by
    apply List.filter_congr
    intro x _
    cases p x <;> simp
  have hright : l.filter (fun x => (!p x) && (p x || q x)) = l.filter q := by
    apply List.filter_congr
    intro x hx
    cases hp : p x with
    | false => simp
    | true => simp [h x hx hp]
  rw [hleft, hright] at hsplit
  exact hsplit

section Taking

/-- What a record takes over from the stored verdict: the word of the SOC, and what the
scanners said that had answered before and did not now. -/
def takenOver (stored : Option Verdict) (done : List String) (f : Finding) : Bool :=
  socKept done f || (decide (f.kind ≠ .socVerdict) &&
    (stored.any fun v => decide (f.scanner ∈ v.scannersDone)) && decide (f.scanner ∉ done))

def storedFindings (stored : Option Verdict) : List Finding := stored.elim [] (·.findings)

theorem foldl_carryScanner_perm (prev : Verdict) (names : List String)
    (carried : List Finding × List String) :
    (names.foldl (carryScanner prev) carried).1.Perm
      (carried.1 ++ prev.findings.filter fun f => decide (f.kind ≠ .socVerdict) &&
        decide (f.scanner ∈ names) && decide (f.scanner ∉ carried.2)) := by
  induction names generalizing carried with
  | nil => simp
  | cons name rest ih =>
    rw [List.foldl_cons]
    refine (ih _).trans ?_
    unfold carryScanner
    split
    · rename_i hdone
      -- the name is done already: nothing of it is taken over
      apply List.Perm.of_eq
      congr 1
      apply List.filter_congr
      intro f _
      by_cases hname : f.scanner = name
      · simp [hname, hdone]
      · simp [hname]
    · rename_i hdone
      rw [List.append_assoc]
      apply List.Perm.append_left
      refine (filter_or_perm ?_).symm.trans (List.Perm.of_eq (List.filter_congr ?_))
      · intro f _ hname
        simp only [Bool.and_eq_true, decide_eq_true_eq] at hname
        simp [hname.1]
      · intro f _
        by_cases hname : f.scanner = name
        · subst hname
          simp [hdone]
        · simp [hname]

theorem carryForward_perm (stored : Option Verdict) (findings : List Finding) (done : List String) :
    (carryForward stored findings done).1.Perm
      (findings ++ (storedFindings stored).filter (takenOver stored done)) := by
  cases stored with
  | none => simp [carryForward, storedFindings]
  | some prev =>
    refine (foldl_carryScanner_perm prev prev.scannersDone _).trans ?_
    rw [List.append_assoc]
    apply List.Perm.append_left
    refine (filter_or_perm ?_).symm
    intro f _ hsoc
    simp only [socKept, Bool.and_eq_true, decide_eq_true_eq] at hsoc
    simp [hsoc.1]

theorem takenOver_of_raised {stored : Option Verdict} {done : List String} {f g : Finding}
    (h : Raised f g) : takenOver stored done g = takenOver stored done f := by
  unfold takenOver socKept
  rw [h.kind_eq, h.scanner_eq]

variable (stored : Option Verdict) (package : PackageMetadata) (policy : SecurityPolicy)
  (findings : List Finding) (done : List String) (now : DateTime)

/-- A second record takes over what the first one would. -/
theorem takenOver_recordScan (f : Finding) :
    takenOver (some (recordScan stored package policy findings done now)) done f =
      takenOver stored done f := by
  unfold takenOver
  congr 1
  rw [Option.any_some]
  by_cases hdone : f.scanner ∈ done
  · simp [hdone]
  · have hmark := scannersDone_recordScan stored package policy findings done now f.scanner
    cases stored with
    | none => simp [hmark, hdone]
    | some v => simp [hmark, hdone]

/-- The findings of the scan, and those that the record takes over. -/
def recorded : List Finding :=
  content findings ++ (content (storedFindings stored)).filter (takenOver stored done)

theorem content_carryForward_perm :
    (content (carryForward stored findings done).1).Perm (recorded stored findings done) := by
  refine ((carryForward_perm stored findings done).filter _).trans (List.Perm.of_eq ?_)
  rw [List.filter_append, recorded]
  congr 1
  exact List.filter_comm _ _ _

theorem escalate_perm {fs gs : List Finding} (h : fs.Perm gs) :
    (escalate policy fs).Perm (escalate policy gs) := by
  rw [escalate_eq_map, escalate_eq_map]
  have hsame : ∀ f, escalatedBy policy.escalation.entries fs f =
      escalatedBy policy.escalation.entries gs f := by
    intro f
    apply escalatedBy_congr
    intro scanner esc _
    exact (h.filter _).length_eq
  rw [List.map_congr_left fun f _ => hsame f]
  exact h.map _

/-- The scanners' findings of what a record stores. -/
theorem content_recordScan_perm :
    (content (recordScan stored package policy findings done now).findings).Perm
      (escalate policy (recorded stored findings done)) := by
  have hcontent : content (recordScan stored package policy findings done now).findings =
      escalate policy (content (carryForward stored findings done).1) := content_judged
  rw [hcontent]
  exact escalate_perm policy (content_carryForward_perm stored findings done)

theorem filter_escalatedBy (blocks : List (Sigma fun _ : String => Escalation))
    (before fs : List Finding) :
    (fs.map (escalatedBy blocks before)).filter (takenOver stored done) =
      (fs.filter (takenOver stored done)).map (escalatedBy blocks before) := by
  rw [List.filter_map]
  congr 1
  apply List.filter_congr
  intro f _
  exact takenOver_of_raised (raised_escalatedBy blocks before f)

/-- What the second record starts from: the scan again, and what the first took over or
brought itself of what is taken over. -/
theorem recorded_recordScan_perm :
    (recorded (some (recordScan stored package policy findings done now)) findings done).Perm
      (content findings ++
        ((recorded stored findings done).filter (takenOver stored done)).map
          (escalatedBy policy.escalation.entries (recorded stored findings done))) := by
  unfold recorded
  apply List.Perm.append_left
  rw [List.filter_congr fun f _ => takenOver_recordScan stored package policy findings done now f]
  refine ((content_recordScan_perm stored package policy findings done now).filter _).trans ?_
  rw [escalate_eq_map, filter_escalatedBy]
  exact List.Perm.refl _

theorem filter_recorded :
    (recorded stored findings done).filter (takenOver stored done) =
      (content findings).filter (takenOver stored done) ++
        (content (storedFindings stored)).filter (takenOver stored done) := by
  rw [recorded, List.filter_append, List.filter_filter]
  simp only [Bool.and_self]

end Taking

section Repeating
variable (stored : Option Verdict) (package : PackageMetadata) (policy : SecurityPolicy)
  (findings : List Finding) (done : List String) (now₁ now₂ : DateTime)

/-- The same findings in any order, the same scanners done and the same state. -/
structure SameRecord (v w : Verdict) : Prop where
  findings : v.findings.Perm w.findings
  done : ∀ s, s ∈ v.scannersDone ↔ s ∈ w.scannersDone
  state : v.state = w.state

/-- The scan recorded at one time and again at another. -/
def recordTwice : Verdict :=
  recordScan (some (recordScan stored package policy findings done now₁)) package policy findings
    done now₂

theorem pendingFindings_congr {d d' : List String} (h : ∀ s, s ∈ d ↔ s ∈ d') :
    pendingFindings policy d = pendingFindings policy d' := by
  unfold pendingFindings
  congr 1
  apply List.filter_congr
  intro s _
  rw [decide_eq_decide, h]

theorem mem_done_recordTwice (s : String) :
    s ∈ (recordTwice stored package policy findings done now₁ now₂).scannersDone ↔
      s ∈ (recordScan stored package policy findings done now₂).scannersDone := by
  unfold recordTwice
  rw [scannersDone_recordScan, scannersDone_recordScan]
  simp only [Option.some.injEq, exists_eq_left', scannersDone_recordScan]
  tauto

/-- A record's findings: the scanners', escalated, and those derived from the clock and the
scanners done. -/
theorem findings_recordScan_perm (now : DateTime) :
    (recordScan stored package policy findings done now).findings.Perm
      (escalate policy (recorded stored findings done) ++ ageFindings package policy now ++
        pendingFindings policy (recordScan stored package policy findings done now).scannersDone) :=
  ((escalate_perm policy (content_carryForward_perm stored findings done)).append_right _).append_right
    _

theorem state_eq_of_perm {fs gs : List Finding} {d d' : List String}
    {last last' : Option DateTime}
    (h : (judged package fs d policy now₂).Perm (judged package gs d' policy now₂)) :
    (evaluate package fs d policy now₂ last).state =
      (evaluate package gs d' policy now₂ last').state := by
  rw [evaluate_state, evaluate_state]
  exact settled_eq (outweighsAll_of_subset h.subset).covers
    (outweighsAll_of_subset h.symm.subset).covers

theorem length_escalate (fs : List Finding) : (escalate policy fs).length = fs.length := by
  rw [escalate_eq_map, List.length_map]

/-- Each repeat adds the findings of the scan that a record takes over. -/
theorem length_recordTwice :
    (recordTwice stored package policy findings done now₁ now₂).findings.length =
      (recordScan stored package policy findings done now₂).findings.length +
        ((content findings).filter (takenOver stored done)).length := by
  have htwice := (findings_recordScan_perm (some (recordScan stored package policy findings done
    now₁)) package policy findings done now₂).length_eq
  have honce := (findings_recordScan_perm stored package policy findings done now₂).length_eq
  have hrecorded := (recorded_recordScan_perm stored package policy findings done now₁).length_eq
  have hpending := pendingFindings_congr policy
    (mem_done_recordTwice stored package policy findings done now₁ now₂)
  rw [filter_recorded, List.length_append, List.length_map, List.length_append] at hrecorded
  rw [List.length_append, List.length_append, length_escalate] at htwice honce
  unfold recordTwice at hpending ⊢
  rw [htwice, honce, hrecorded, hpending, recorded, List.length_append]
  omega

/-- Recording a scan twice is recording it once, exactly when the scan brings nothing that a
record takes over: no error of a scanner that had answered before, and no word of the SOC
other than the `flags` scanner's answer. -/
theorem record_twice_iff :
    SameRecord (recordTwice stored package policy findings done now₁ now₂)
        (recordScan stored package policy findings done now₂) ↔
      ∀ f ∈ content findings, takenOver stored done f = false := by
  constructor
  · intro h
    have hlength := h.findings.length_eq
    rw [length_recordTwice, Nat.add_eq_left, List.length_eq_zero_iff, List.filter_eq_nil_iff]
      at hlength
    intro f hf
    simpa using hlength f hf
  · intro h
    have hnone : (content findings).filter (takenOver stored done) = [] := by
      rw [List.filter_eq_nil_iff]
      intro f hf
      simp [h f hf]
    have hrecorded := recorded_recordScan_perm stored package policy findings done now₁
    rw [filter_recorded, hnone, List.nil_append] at hrecorded
    have hescalated := (escalate_perm policy hrecorded).trans (List.Perm.of_eq
      (escalate_append_escalated policy (content findings)
        ((content (storedFindings stored)).filter (takenOver stored done))))
    have hdone := mem_done_recordTwice stored package policy findings done now₁ now₂
    have hfindings : (recordTwice stored package policy findings done now₁ now₂).findings.Perm
        (recordScan stored package policy findings done now₂).findings := by
      refine (findings_recordScan_perm _ package policy findings done now₂).trans ?_
      refine List.Perm.trans ?_
        (findings_recordScan_perm stored package policy findings done now₂).symm
      have hpending := pendingFindings_congr policy hdone
      unfold recordTwice at hpending
      rw [hpending]
      exact (hescalated.append_right _).append_right _
    exact ⟨hfindings, hdone, state_eq_of_perm package policy now₂ hfindings⟩

end Repeating

section Failing

/-- A verdict that `osv` has answered for and found nothing wrong with. -/
def answeredVerdict : Verdict :=
  evaluate leftpad [] ["osv"] (SecurityPolicy.defaultsFor "npm") day (some day)

def osvError : Finding :=
  Finding.new "osv" .scannerError .scannerError .high "scanner timed out"

/-- A rescan that fails twice leaves the error twice. -/
theorem a_repeated_failure_is_kept_twice :
    ¬ ∀ stored package policy findings done now₁ now₂,
      SameRecord (recordTwice stored package policy findings done now₁ now₂)
        (recordScan stored package policy findings done now₂) := by
  intro h
  have hlength := (h (some answeredVerdict) leftpad (SecurityPolicy.defaultsFor "npm") [osvError] []
    day day).findings.length_eq
  rw [length_recordTwice] at hlength
  have hnew : ((content [osvError]).filter (takenOver (some answeredVerdict) [])).length = 0 := by
    omega
  exact absurd hnew (by decide)

end Failing

end BatleHub.RepeatedScans
