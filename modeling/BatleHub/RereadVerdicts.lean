import BatleHub.VerdictOrder

/-!
A stored verdict judged again under another policy (`services/verdict.rs`). What an
evaluation stores are the findings as its own policy escalated them, and nothing in a
finding says that it was raised. A later policy that escalates less reads the raised
severity as the scanner's.
-/
namespace BatleHub.RereadVerdicts

open LocalPackages Verdicts VerdictEvaluation VerdictOrder

section Readings

/-- A finding as a policy reads it among what the scanners said. -/
def asSaid (policy : SecurityPolicy) (said : List Finding) (f : Finding) : Finding :=
  escalatedBy policy.escalation.entries (content said) f

/-- A finding as a policy reads it among what an earlier policy stored. -/
def asStored (earlier policy : SecurityPolicy) (said : List Finding) (f : Finding) : Finding :=
  escalatedBy policy.escalation.entries (escalate earlier (content said)) (asSaid earlier said f)

variable (earlier policy : SecurityPolicy) (said : List Finding)

theorem raised_asSaid (f : Finding) : Raised f (asSaid policy said f) := raised_escalatedBy _ _ f

theorem raised_asStored (f : Finding) : Raised f (asStored earlier policy said f) :=
  (raised_asSaid earlier said f).trans (raised_escalatedBy _ _ _)

theorem escalate_content : escalate policy (content said) =
    (content said).map (asSaid policy said) := escalate_eq_map policy (content said)

theorem escalate_stored : escalate policy (escalate earlier (content said)) =
    (content said).map (asStored earlier policy said) := by
  rw [escalate_eq_map policy, escalate_content earlier, List.map_map]
  apply List.map_congr_left
  intro f _
  rw [Function.comp_apply, asStored, escalate_content]

theorem severity_le_of_raised {f g : Finding} (h : Raised f g) : f.severity ≤ g.severity := by
  obtain ⟨severity, hle, rfl⟩ := h
  exact hle

theorem hits_of_raised {scanner : String} {esc : Escalation} {f g : Finding} (h : Raised f g)
    (hhit : hits scanner esc f = true) : hits scanner esc g = true := by
  obtain ⟨severity, hle, rfl⟩ := h
  simp only [hits, Bool.and_eq_true, decide_eq_true_eq] at hhit ⊢
  exact ⟨hhit.1, Nat.le_trans hhit.2 hle⟩

theorem hitCount_le_map {g : Finding → Finding} (h : ∀ f, Raised f (g f)) (scanner : String)
    (esc : Escalation) (findings : List Finding) :
    hitCount findings scanner esc ≤ hitCount (findings.map g) scanner esc := by
  unfold hitCount
  rw [List.filter_map, List.length_map]
  exact (List.monotone_filter_right findings fun f hf => hits_of_raised (h f) hf).length_le

theorem raiseTo_severity (severity : Severity) (f : Finding) :
    f.severity ≤ (raiseTo severity f).severity ∧ severity ≤ (raiseTo severity f).severity := by
  unfold raiseTo
  split
  · rename_i hlt
    exact ⟨Nat.le_of_lt hlt, Nat.le_refl _⟩
  · rename_i hlt
    exact ⟨Nat.le_refl _, Nat.not_lt.mp hlt⟩

theorem raiseTo_le {severity : Severity} {f : Finding} {bound : Severity} (hf : f.severity ≤ bound)
    (hs : severity ≤ bound) : (raiseTo severity f).severity ≤ bound := by
  unfold raiseTo
  split
  · exact hs
  · exact hf

/-- A policy reads what was stored no milder than what was said. -/
theorem asStored_outweighs (f : Finding) :
    Outweighs (asStored earlier policy said f) (asSaid policy said f) := by
  have hearly := raised_asSaid earlier said f
  refine ⟨?_, ?_⟩
  · rw [(raised_asStored earlier policy said f).code_eq, (raised_asSaid policy said f).code_eq]
  · unfold asStored
    rw [asSaid, escalatedBy, escalatedBy, hearly.scanner_eq]
    cases policy.escalation.entries.dlookup f.scanner with
    | none => exact severity_le_of_raised hearly
    | some esc =>
      dsimp only
      have hcount : hitCount (content said) f.scanner esc ≤
          hitCount (escalate earlier (content said)) f.scanner esc := by
        rw [escalate_content]
        exact hitCount_le_map (raised_asSaid earlier said) f.scanner esc (content said)
      by_cases hn : max esc.count 1 ≤ hitCount (content said) f.scanner esc ∧
          hits f.scanner esc f = true
      · have hn' : max esc.count 1 ≤ hitCount (escalate earlier (content said)) f.scanner esc ∧
            hits f.scanner esc (asSaid earlier said f) = true :=
          ⟨le_trans hn.1 hcount, hits_of_raised hearly hn.2⟩
        rw [escalatedBlock, if_pos hn, escalatedBlock, if_pos hn']
        have hraise := raiseTo_severity esc.raised (asSaid earlier said f)
        exact raiseTo_le (Nat.le_trans (severity_le_of_raised hearly) hraise.1) hraise.2
      · rw [escalatedBlock, if_neg hn]
        exact Nat.le_trans (severity_le_of_raised hearly)
          (severity_le_of_raised (raised_escalatedBlock _ _ _ _))

end Readings

section Rereading
variable (package : PackageMetadata) (said : List Finding) (done : List String)
  (earlier policy : SecurityPolicy) (t₀ t₁ : DateTime) (last : Option DateTime)

/-- The verdict under `policy` at `t₁` of what `earlier` stored at `t₀`. -/
def reread : Verdict :=
  evaluate package (evaluate package said done earlier t₀ last).findings done policy t₁ last

/-- A read says what judging the scanners' words says: the state and the reason codes. -/
structure JudgedAsSaid : Prop where
  state : (reread package said done earlier policy t₀ t₁ last).state =
    (evaluate package said done policy t₁ last).state
  codes : ∀ c, c ∈ (reread package said done earlier policy t₀ t₁ last).reasonCodes ↔
    c ∈ (evaluate package said done policy t₁ last).reasonCodes

/-- The findings that only the clock and the scanners done decide. -/
def derived : List Finding := ageFindings package policy t₁ ++ pendingFindings policy done

/-- What the earlier policy raised tells the later one nothing new: a finding that has an
effect as stored brings no code that has none as said, and one that refuses as stored has
company that refuses as said. -/
structure RaisesNothingNew : Prop where
  codes : ∀ f ∈ content said, classify policy (asStored earlier policy said f) ≠ none →
    (∃ g ∈ content said, g.code = f.code ∧ classify policy (asSaid policy said g) ≠ none) ∨
      ∃ g ∈ derived package done policy t₁, g.code = f.code
  refusals : ∀ f ∈ content said, classify policy (asStored earlier policy said f) = some .denied →
    ∃ g ∈ content said, classify policy (asSaid policy said g) = some .denied

theorem judged_said : judged package said done policy t₁ =
    (content said).map (asSaid policy said) ++ derived package done policy t₁ := by
  rw [judged, escalate_content, derived, List.append_assoc]

theorem judged_stored :
    judged package (evaluate package said done earlier t₀ last).findings done policy t₁ =
      (content said).map (asStored earlier policy said) ++ derived package done policy t₁ := by
  have hcontent : content (evaluate package said done earlier t₀ last).findings =
      escalate earlier (content said) := content_judged
  rw [judged, hcontent, escalate_stored, derived, List.append_assoc]

variable {package said done earlier policy t₁}

theorem classify_ne_allowed {f : Finding} : classify policy f ≠ some .allowed := by
  intro h
  unfold classify threshold scannerErrorEffect installHookEffect provenanceEffect forgeRefEffect
    threshold at h
  split at h
  · cases h
  · cases hc : f.code <;> simp only [hc] at h <;> (repeat' split at h) <;> cases h

theorem quarantined_of_derived {f : Finding} (h : f ∈ derived package done policy t₁) :
    classify policy f = some .quarantined := by
  rcases List.mem_append.mp h with hage | hpending
  · obtain rfl | ⟨published, rfl⟩ := ageFindings_cases hage
    · rfl
    · rfl
  · obtain ⟨s, -, rfl⟩ := List.mem_map.mp hpending
    rfl

theorem mem_codes_iff {reading : Finding → Finding} (hreading : ∀ f, Raised f (reading f))
    (c : ReasonCode) :
    c ∈ (fold policy ((content said).map reading ++ derived package done policy t₁)).codes ↔
      (∃ f ∈ content said, f.code = c ∧ classify policy (reading f) ≠ none) ∨
        ∃ f ∈ derived package done policy t₁, f.code = c := by
  rw [mem_fold_codes]
  simp only [List.mem_append, or_and_right, exists_or, List.mem_map, exists_exists_and_eq_and,
    (hreading _).code_eq]
  refine or_congr Iff.rfl (exists_congr fun f => and_congr_right fun hf => ?_)
  simp [quarantined_of_derived hf]

theorem mem_codes_reread (c : ReasonCode) :
    c ∈ (reread package said done earlier policy t₀ t₁ last).reasonCodes ↔
      (∃ f ∈ content said, f.code = c ∧ classify policy (asStored earlier policy said f) ≠ none) ∨
        ∃ f ∈ derived package done policy t₁, f.code = c := by
  rw [← mem_codes_iff (raised_asStored earlier policy said), ← judged_stored]
  rfl

theorem mem_codes_said (c : ReasonCode) :
    c ∈ (evaluate package said done policy t₁ last).reasonCodes ↔
      (∃ f ∈ content said, f.code = c ∧ classify policy (asSaid policy said f) ≠ none) ∨
        ∃ f ∈ derived package done policy t₁, f.code = c := by
  rw [← mem_codes_iff (raised_asSaid policy said), ← judged_said]
  rfl

theorem said_covered_by_stored :
    Covers policy ((content said).map (asStored earlier policy said) ++
        derived package done policy t₁)
      ((content said).map (asSaid policy said) ++ derived package done policy t₁) := by
  refine OutweighsAll.covers (OutweighsAll.append ?_ (outweighsAll_of_subset (fun _ h => h)))
  intro f hf
  obtain ⟨x, hx, rfl⟩ := List.mem_map.mp hf
  exact ⟨_, List.mem_map_of_mem hx, asStored_outweighs earlier policy said x⟩

theorem RaisesNothingNew.exists_effect (h : RaisesNothingNew package said done earlier policy t₁)
    {f : Finding} (hf : f ∈ content said)
    (hsome : classify policy (asStored earlier policy said f) ≠ none) :
    ∃ g ∈ judged package said done policy t₁, ∃ effect, classify policy g = some effect := by
  rw [judged_said]
  rcases h.codes f hf hsome with ⟨g, hg, -, heffect⟩ | ⟨g, hg, -⟩
  · obtain ⟨effect, heffect⟩ := Option.ne_none_iff_exists'.mp heffect
    exact ⟨_, List.mem_append_left _ (List.mem_map_of_mem hg), effect, heffect⟩
  · exact ⟨g, List.mem_append_right _ hg, .quarantined, quarantined_of_derived hg⟩

/-- Where nothing new is told, what was said covers what was stored. -/
theorem RaisesNothingNew.covers (h : RaisesNothingNew package said done earlier policy t₁) :
    Covers policy (judged package said done policy t₁)
      ((content said).map (asStored earlier policy said) ++ derived package done policy t₁) := by
  have hholds : ∀ f ∈ content said,
      classify policy (asStored earlier policy said f) = some .quarantined →
      ∃ g ∈ judged package said done policy t₁,
        g.code = f.code ∧ classify policy g = some .quarantined := by
    intro f hf hhold
    have hcodes : (asSaid policy said f).code = (asStored earlier policy said f).code :=
      (asStored_outweighs earlier policy said f).1.symm
    refine ⟨asSaid policy said f, ?_, (raised_asSaid policy said f).code_eq, ?_⟩
    · rw [judged_said]
      exact List.mem_append_left _ (List.mem_map_of_mem hf)
    · exact classify_quarantined_of_code hcodes hhold
  constructor
  · intro f hf effect heffect
    rcases List.mem_append.mp hf with hcontent | hderived
    · obtain ⟨x, hx, rfl⟩ := List.mem_map.mp hcontent
      cases effect with
      | allowed => exact absurd heffect classify_ne_allowed
      | warned =>
        obtain ⟨g, hg, effect', heffect'⟩ := h.exists_effect hx (by rw [heffect]; simp)
        refine ⟨g, hg, effect', heffect', ?_⟩
        cases effect' with
        | allowed => exact absurd heffect' classify_ne_allowed
        | warned => decide
        | quarantined => decide
        | denied => decide
      | quarantined =>
        obtain ⟨g, hg, -, hhold⟩ := hholds x hx heffect
        exact ⟨g, hg, .quarantined, hhold, Nat.le_refl _⟩
      | denied =>
        obtain ⟨g, hg, hdenied⟩ := h.refusals x hx heffect
        refine ⟨asSaid policy said g, ?_, .denied, hdenied, Nat.le_refl _⟩
        rw [judged_said]
        exact List.mem_append_left _ (List.mem_map_of_mem hg)
    · refine ⟨f, ?_, effect, heffect, Nat.le_refl _⟩
      rw [judged_said]
      exact List.mem_append_right _ hderived
  · intro f hf hhold
    rcases List.mem_append.mp hf with hcontent | hderived
    · obtain ⟨x, hx, rfl⟩ := List.mem_map.mp hcontent
      obtain ⟨g, hg, hcode, hhold'⟩ := hholds x hx hhold
      exact ⟨g, hg, hcode.trans (raised_asStored earlier policy said x).code_eq.symm, hhold'⟩
    · refine ⟨f, ?_, rfl, hhold⟩
      rw [judged_said]
      exact List.mem_append_right _ hderived

/-- A stored verdict is judged as its scanners' words are, exactly when what the earlier
policy raised tells the later one nothing new. -/
theorem judged_as_said_iff (package : PackageMetadata) (said : List Finding) (done : List String)
    (earlier policy : SecurityPolicy) (t₀ t₁ : DateTime) (last : Option DateTime) :
    JudgedAsSaid package said done earlier policy t₀ t₁ last ↔
      RaisesNothingNew package said done earlier policy t₁ := by
  constructor
  · intro h
    constructor
    · intro f hf hsome
      rw [← mem_codes_said last, ← h.codes, mem_codes_reread]
      exact .inl ⟨f, hf, rfl, hsome⟩
    · intro f hf hdenied
      have hstored : (reread package said done earlier policy t₀ t₁ last).state = .denied := by
        rw [reread, evaluate_denied_iff, judged_stored]
        exact ⟨_, List.mem_append_left _ (List.mem_map_of_mem hf), hdenied⟩
      rw [h.state, evaluate_denied_iff, judged_said] at hstored
      obtain ⟨g, hg, hrefused⟩ := hstored
      rcases List.mem_append.mp hg with hcontent | hderived
      · obtain ⟨x, hx, rfl⟩ := List.mem_map.mp hcontent
        exact ⟨x, hx, hrefused⟩
      · rw [quarantined_of_derived hderived] at hrefused
        cases hrefused
  · intro h
    constructor
    · rw [reread, evaluate_state, evaluate_state, judged_stored]
      apply settled_eq h.covers
      rw [judged_said]
      exact said_covered_by_stored
    · intro c
      rw [mem_codes_reread, mem_codes_said]
      constructor
      · rintro (⟨f, hf, rfl, hsome⟩ | hderived)
        · exact h.codes f hf hsome
        · exact .inr hderived
      · rintro (⟨f, hf, hcode, hsome⟩ | hderived)
        · obtain ⟨effect, heffect⟩ := Option.ne_none_iff_exists'.mp hsome
          obtain ⟨effect', heffect', -⟩ :=
            classify_rank_le (asStored_outweighs earlier policy said f) heffect
          refine .inl ⟨f, hf, hcode, ?_⟩
          rw [heffect']
          simp
        · exact .inr hderived

end Rereading

section Raised

/-- One `osv` vulnerability is as bad as a critical one. -/
def alarmedPolicy : SecurityPolicy :=
  { SecurityPolicy.defaultsFor "npm" with
    minAge := 0
    escalation := (∅ : Lib.AssocMap.Assoc String Escalation).insert "osv"
      ⟨[.vulnerability], 1, .low, .critical⟩ }

def calmPolicy : SecurityPolicy := { SecurityPolicy.defaultsFor "npm" with minAge := 0 }

def lowFinding : Finding := Finding.new "osv" .vulnerability .vulnerability .low "a slow loop"

/-- After the escalation block is taken out, the version stays refused for it. -/
theorem a_taken_back_escalation_stays :
    ¬ ∀ package said done earlier policy t₀ t₁, t₀ ≤ t₁ → ∀ last,
      JudgedAsSaid package said done earlier policy t₀ t₁ last := by
  intro h
  have hstate := (h leftpad [lowFinding] ["osv"] alarmedPolicy calmPolicy 1 2 (by decide)
    none).state
  exact absurd hstate (by decide)

end Raised

end BatleHub.RereadVerdicts
