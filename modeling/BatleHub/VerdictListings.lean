import BatleHub.VerdictEvaluation

/-!
The listing filter against the download gate, as time passes. The filter reads a
stored verdict: its state, its codes and one instant. The gate evaluates again. A
denial and a served verdict stay what they are, so the two can only part over a
hold: the filter lifts it when its clock has run out, the gate when nothing holds
any more, or nothing but an unanswered scan on a mature version.
-/
namespace BatleHub.VerdictListings

open LocalPackages Verdicts VerdictEvaluation

section Holds
variable (package : PackageMetadata) (findings : List Finding) (done : List String)
  (policy : SecurityPolicy)

/-- What the scanners said, escalated. -/
def kept : List Finding := escalate policy (content findings)

/-- Some scanner's finding denies. -/
def Denies : Prop := ∃ f ∈ kept findings policy, classify policy f = some .denied

/-- The version is too young, or is held for carrying no date. -/
def AgeHolds (t : DateTime) : Prop := ageFindings package policy t ≠ []

/-- Some required scanner has not answered. -/
def Unanswered : Prop := ∃ s ∈ policy.requiredScanners, s ∉ done

/-- Older than the mature age, where there is one. -/
def Mature (t : DateTime) : Prop :=
  policy.matureAge ≠ 0 ∧
    ∃ published, package.publishedAt = some published ∧
      published + fromStdOrDefault policy.matureAge ≤ t

/-- No scan holds the version at `t`: every required scanner answered and no
finding holds, or the version is mature and only scans that did not happen hold. -/
def ScansExcused (t : DateTime) : Prop :=
  (¬ Unanswered done policy ∧
      ∀ f ∈ kept findings policy, classify policy f ≠ some .quarantined) ∨
    (Mature package policy t ∧
      ∀ f ∈ kept findings policy, classify policy f = some .quarantined →
        f.code.isMaturityBypassable = true)

/-- Nothing holds the version at `t`. -/
def HoldsEnd (t : DateTime) : Prop :=
  ¬ AgeHolds package policy t ∧ ScansExcused package findings done policy t

/-- The hold of `t₀` names a lift, every lift the scanners name has come at `t`, and
no scanner said anything but what time lifts. -/
def ClockRunsOut (t₀ t : DateTime) : Prop :=
  (∀ f ∈ kept findings policy, classify policy f ≠ none → f.code.isTimeBound = true) ∧
    (AgeHolds package policy t₀ ∨
      ∃ f ∈ kept findings policy, classify policy f = some .quarantined ∧
        f.availableAt.isSome = true) ∧
    ∀ f ∈ kept findings policy, classify policy f = some .quarantined →
      ∀ a, f.availableAt = some a → a ≤ t

end Holds

section Evaluated
variable {package : PackageMetadata} {findings : List Finding} {done : List String}
  {policy : SecurityPolicy} {t₀ t : DateTime} {last : Option DateTime}

theorem classify_ageFinding {f : Finding} (h : f ∈ ageFindings package policy t) :
    classify policy f = some .quarantined ∧ f.code.isMaturityBypassable = false := by
  obtain rfl | ⟨published, rfl⟩ := ageFindings_cases h
  · exact ⟨rfl, rfl⟩
  · exact ⟨rfl, rfl⟩

theorem classify_pendingFinding {f : Finding} (h : f ∈ pendingFindings policy done) :
    classify policy f = some .quarantined ∧ f.code.isMaturityBypassable = true := by
  obtain ⟨s, -, rfl⟩ := List.mem_map.mp h
  exact ⟨rfl, rfl⟩

theorem pendingFindings_eq_nil_iff :
    pendingFindings policy done = [] ↔ ¬ Unanswered done policy := by
  simp [pendingFindings, Unanswered]

theorem mem_judged_iff {f : Finding} :
    f ∈ judged package findings done policy t ↔
      f ∈ kept findings policy ∨ f ∈ ageFindings package policy t ∨
        f ∈ pendingFindings policy done := by
  simp [judged, kept]

/-- Age and pending findings hold; they do not deny. -/
theorem exists_judged_denied_iff :
    (∃ f ∈ judged package findings done policy t, classify policy f = some .denied) ↔
      Denies findings policy := by
  constructor
  · intro hex
    obtain ⟨f, hf, hdenied⟩ := hex
    rcases mem_judged_iff.mp hf with hkept | hage | hpending
    · exact ⟨f, hkept, hdenied⟩
    · rw [(classify_ageFinding hage).1] at hdenied
      exact absurd hdenied (by decide)
    · rw [(classify_pendingFinding hpending).1] at hdenied
      exact absurd hdenied (by decide)
  · intro hex
    obtain ⟨f, hf, hdenied⟩ := hex
    exact ⟨f, mem_judged_iff.mpr (.inl hf), hdenied⟩

theorem evaluate_denied_iff_denies :
    (evaluate package findings done policy t last).state = .denied ↔ Denies findings policy := by
  rw [evaluate_denied_iff, exists_judged_denied_iff]

/-- Nothing holds exactly when the fold is served. -/
theorem fold_judged_served_iff :
    (fold policy (judged package findings done policy t)).state.isServed = true ↔
      ¬ Denies findings policy ∧ ¬ AgeHolds package policy t ∧ ¬ Unanswered done policy ∧
        ∀ f ∈ kept findings policy, classify policy f ≠ some .quarantined := by
  rw [fold_served_iff]
  constructor
  · intro h
    have hage : ageFindings package policy t = [] := by
      apply List.eq_nil_iff_forall_not_mem.mpr
      intro f hf
      have := h f (mem_judged_iff.mpr (.inr (.inl hf))) _ (classify_ageFinding hf).1
      exact absurd this (by decide)
    have hpending : pendingFindings policy done = [] := by
      apply List.eq_nil_iff_forall_not_mem.mpr
      intro f hf
      have := h f (mem_judged_iff.mpr (.inr (.inr hf))) _ (classify_pendingFinding hf).1
      exact absurd this (by decide)
    refine ⟨?_, fun hne => hne hage, pendingFindings_eq_nil_iff.mp hpending, ?_⟩
    · intro hex
      obtain ⟨f, hf, hdenied⟩ := hex
      exact absurd (h f (mem_judged_iff.mpr (.inl hf)) _ hdenied) (by decide)
    · intro f hf hheld
      exact absurd (h f (mem_judged_iff.mpr (.inl hf)) _ hheld) (by decide)
  · intro h f hf effect heffect
    obtain ⟨hdenies, hage, hunanswered, hheld⟩ := h
    rcases mem_judged_iff.mp hf with hkept | hf | hf
    · cases effect with
      | allowed => rfl
      | warned => rfl
      | quarantined => exact absurd heffect (hheld f hkept)
      | denied => exact absurd ⟨f, hkept, heffect⟩ hdenies
    · rw [not_not.mp hage] at hf
      exact absurd hf (by simp)
    · rw [pendingFindings_eq_nil_iff.mpr hunanswered] at hf
      exact absurd hf (by simp)

theorem maturityLifts_iff {folded : Folded} :
    maturityLifts folded package policy t = true ↔
      folded.state = .quarantined ∧ folded.holdCodes ≠ [] ∧ Mature package policy t ∧
        ∀ c ∈ folded.holdCodes, c.isMaturityBypassable = true := by
  unfold maturityLifts Mature
  by_cases hstate : folded.state = .quarantined
  · by_cases hcodes : folded.holdCodes = []
    · simp [hcodes]
    · by_cases hage : policy.matureAge = 0
      · simp [hage]
      · rw [if_neg (by simp [hstate, hcodes, hage])]
        by_cases hall : folded.holdCodes.all ReasonCode.isMaturityBypassable = true
        · rw [if_pos hall]
          cases hpub : package.publishedAt with
          | none => simp
          | some published =>
            have hall' := List.all_eq_true.mp hall
            simp only [decide_eq_true_eq, Option.some.injEq, exists_eq_left']
            exact ⟨fun hle => ⟨hstate, hcodes, ⟨hage, hle⟩, hall'⟩, fun h => h.2.2.1.2⟩
        · rw [if_neg hall]
          rw [List.all_eq_true] at hall
          simp only [Bool.false_eq_true, false_iff]
          intro h
          exact hall h.2.2.2
  · simp [hstate]

theorem evaluate_served_eq :
    (evaluate package findings done policy t last).isServed = true ↔
      maturityLifts (fold policy (judged package findings done policy t)) package policy t = true ∨
        (fold policy (judged package findings done policy t)).state.isServed = true := by
  simp only [evaluate, Verdict.isServed]
  split
  · rename_i h
    simp [h, VerdictState.isServed]
  · rename_i h
    simp [h]

/-- The gate serves exactly what nothing denies and nothing holds any more. -/
theorem evaluate_served_iff :
    (evaluate package findings done policy t last).isServed = true ↔
      ¬ Denies findings policy ∧ HoldsEnd package findings done policy t := by
  rw [evaluate_served_eq]
  constructor
  · intro hcase
    rcases hcase with hlift | hserved
    · obtain ⟨hstate, -, hmature, hall⟩ := maturityLifts_iff.mp hlift
      have hbypass : ∀ f ∈ judged package findings done policy t,
          classify policy f = some .quarantined → f.code.isMaturityBypassable = true := by
        intro f hf hheld
        apply hall
        rw [fold_holdCodes]
        exact List.mem_map_of_mem (List.mem_filter.mpr ⟨hf, by simp [hheld]⟩)
      refine ⟨?_, ?_, .inr ⟨hmature, ?_⟩⟩
      · intro hdenies
        have hdenied : (fold policy (judged package findings done policy t)).state = .denied :=
          (fold_denied_iff policy _).mpr (exists_judged_denied_iff.mpr hdenies)
        rw [hstate] at hdenied
        exact absurd hdenied (by decide)
      · intro hage
        obtain ⟨f, hf⟩ := List.exists_mem_of_ne_nil _ hage
        obtain ⟨hheld, hnot⟩ := classify_ageFinding hf
        rw [hbypass f (mem_judged_iff.mpr (.inr (.inl hf))) hheld] at hnot
        exact absurd hnot (by decide)
      · intro f hf hheld
        exact hbypass f (mem_judged_iff.mpr (.inl hf)) hheld
    · obtain ⟨hdenies, hage, hunanswered, hheld⟩ := fold_judged_served_iff.mp hserved
      exact ⟨hdenies, hage, .inl ⟨hunanswered, hheld⟩⟩
  · intro h
    obtain ⟨hdenies, hage, hcase⟩ := h
    rcases hcase with ⟨hunanswered, hheld⟩ | ⟨hmature, hbypass⟩
    · exact .inr (fold_judged_served_iff.mpr ⟨hdenies, hage, hunanswered, hheld⟩)
    · by_cases hserved : (fold policy (judged package findings done policy t)).state.isServed = true
      · exact .inr hserved
      · left
        have hnot : (fold policy (judged package findings done policy t)).state ≠ .denied := by
          rw [Ne, fold_denied_iff, exists_judged_denied_iff]
          exact hdenies
        have hstate : (fold policy (judged package findings done policy t)).state =
            .quarantined := by
          cases hs : (fold policy (judged package findings done policy t)).state with
          | allowed => simp [hs, VerdictState.isServed] at hserved
          | warned => simp [hs, VerdictState.isServed] at hserved
          | quarantined => rfl
          | denied => exact absurd hs hnot
        have hcodes : ∀ c ∈ (fold policy (judged package findings done policy t)).holdCodes,
            c.isMaturityBypassable = true := by
          intro c hc
          rw [fold_holdCodes] at hc
          obtain ⟨f, hf, rfl⟩ := List.mem_map.mp hc
          obtain ⟨hf, hheld⟩ := List.mem_filter.mp hf
          rcases mem_judged_iff.mp hf with hkept | hf | hf
          · exact hbypass f hkept (by simpa using hheld)
          · rw [not_not.mp hage] at hf
            exact absurd hf (by simp)
          · exact (classify_pendingFinding hf).2
        refine maturityLifts_iff.mpr ⟨hstate, ?_, hmature, hcodes⟩
        intro hnil
        rw [fold_holdCodes, List.map_eq_nil_iff, List.filter_eq_nil_iff] at hnil
        apply hserved
        rw [fold_served_iff]
        intro f hf effect heffect
        cases effect with
        | allowed => rfl
        | warned => rfl
        | quarantined => exact absurd (by simpa using heffect) (hnil f hf)
        | denied => exact absurd ((fold_denied_iff policy _).mpr ⟨f, hf, heffect⟩) hnot

/-- Judging a stored verdict again is judging its findings at the new instant. -/
theorem evaluate_rejudged {t₀ : DateTime} {last last' : Option DateTime} :
    (evaluate package (evaluate package findings done policy t₀ last).findings
        (evaluate package findings done policy t₀ last).scannersDone policy t last').isServed =
      (evaluate package findings done policy t last).isServed := by
  simp only [evaluate, judged_judged]
  rfl

theorem isServed_eq_false_iff (v : Verdict) :
    v.isServed = false ↔ v.state = .quarantined ∨ v.state = .denied := by
  cases h : v.state <;> simp [Verdict.isServed, VerdictState.isServed, h]

end Evaluated

section Listed
variable {package : PackageMetadata} {findings : List Finding} {done : List String}
  {policy : SecurityPolicy} {t₀ t : DateTime} {last : Option DateTime}

theorem threshold_warn (hmode : policy.mode = .warn) (severity : Severity) :
    threshold severity policy ≠ some .denied := by
  unfold threshold
  rw [hmode]
  split <;> simp

theorem scannerErrorEffect_ne_denied : scannerErrorEffect policy ≠ some .denied := by
  unfold scannerErrorEffect
  split <;> simp

theorem installHookEffect_warn (hmode : policy.mode = .warn) :
    installHookEffect policy ≠ some .denied := by
  unfold installHookEffect
  split
  · exact threshold_warn hmode _
  · simp
  · simp

theorem provenanceEffect_warn (hmode : policy.mode = .warn) :
    provenanceEffect policy ≠ some .denied := by
  unfold provenanceEffect
  split
  · exact threshold_warn hmode _
  · simp

theorem forgeRefEffect_warn (hmode : policy.mode = .warn) (f : Finding) :
    forgeRefEffect f policy ≠ some .denied := by
  unfold forgeRefEffect
  rw [hmode]
  simp

/-- In `warn` mode only an administrator's or the SOC's word denies. -/
theorem alwaysDenied_of_warn {f : Finding} (hmode : policy.mode = .warn)
    (h : classify policy f = some .denied) : f.code.isAlwaysDenied = true := by
  by_contra hnot
  unfold classify at h
  rw [if_neg hnot] at h
  cases hcode : f.code <;> simp only [hcode] at h <;>
    first
    | exact threshold_warn hmode _ h
    | exact scannerErrorEffect_ne_denied h
    | exact installHookEffect_warn hmode h
    | exact provenanceEffect_warn hmode h
    | exact forgeRefEffect_warn hmode f h
    | exact absurd h (by decide)

theorem hidden_of_denies (h : Denies findings policy) :
    (evaluate package findings done policy t₀ last).hidesFromListingsUnder t policy.mode =
      true := by
  have hstate : (evaluate package findings done policy t₀ last).state = .denied :=
    evaluate_denied_iff_denies.mpr h
  obtain ⟨f, hf, hdenied⟩ := h
  unfold Verdict.hidesFromListingsUnder
  rw [hstate]
  cases hmode : policy.mode with
  | block => rfl
  | warn =>
    have hcode : f.code ∈ (evaluate package findings done policy t₀ last).reasonCodes := by
      refine (mem_fold_codes policy _ _).mpr ⟨f, mem_judged_iff.mpr (.inl hf), rfl, ?_⟩
      simp [hdenied]
    exact List.any_eq_true.mpr ⟨f.code, hcode, alwaysDenied_of_warn hmode hdenied⟩

theorem not_hidden_of_served {v : Verdict} {mode : SecurityMode} (h : v.isServed = true) :
    v.hidesFromListingsUnder t mode = false := by
  unfold Verdict.hidesFromListingsUnder
  unfold Verdict.isServed at h
  cases hstate : v.state <;> simp [hstate, VerdictState.isServed] at h ⊢

/-- What the filter makes of a hold. -/
theorem not_hidden_iff_of_quarantined
    (hstate : (evaluate package findings done policy t₀ last).state = .quarantined)
    (mode : SecurityMode) :
    (evaluate package findings done policy t₀ last).hidesFromListingsUnder t mode = false ↔
      (∀ f ∈ judged package findings done policy t₀, classify policy f ≠ none →
          f.code.isTimeBound = true) ∧
        (∃ f ∈ judged package findings done policy t₀, classify policy f = some .quarantined ∧
          f.availableAt.isSome = true) ∧
        ∀ f ∈ judged package findings done policy t₀, classify policy f = some .quarantined →
          ∀ a, f.availableAt = some a → a ≤ t := by
  have havailable : (evaluate package findings done policy t₀ last).availableAt =
      (fold policy (judged package findings done policy t₀)).availableAt := by
    simp only [evaluate] at hstate ⊢
    rw [if_pos hstate]
  have hcodes : (evaluate package findings done policy t₀ last).reasonCodes =
      (fold policy (judged package findings done policy t₀)).codes := rfl
  unfold Verdict.hidesFromListingsUnder
  rw [hstate]
  dsimp only
  rw [havailable, hcodes, Bool.not_eq_false', Bool.and_eq_true, Bool.and_eq_true,
    List.all_eq_true]
  have hlift := fold_liftedBy policy t (judged package findings done policy t₀)
  unfold liftedBy at hlift
  rw [hlift]
  constructor
  · intro h
    obtain ⟨⟨-, hall⟩, hnamed, hcome⟩ := h
    refine ⟨?_, hnamed, hcome⟩
    intro f hf heffect
    exact hall f.code ((mem_fold_codes policy _ _).mpr ⟨f, hf, rfl, heffect⟩)
  · intro h
    obtain ⟨hall, hnamed, hcome⟩ := h
    refine ⟨⟨?_, ?_⟩, hnamed, hcome⟩
    · obtain ⟨f, hf, hheld, -⟩ := hnamed
      have hmem : f.code ∈ (fold policy (judged package findings done policy t₀)).codes :=
        (mem_fold_codes policy _ _).mpr ⟨f, hf, rfl, by simp [hheld]⟩
      simp [List.ne_nil_of_mem hmem]
    · intro c hc
      obtain ⟨f, hf, rfl, heffect⟩ := (mem_fold_codes policy _ _).mp hc
      exact hall f hf heffect

/-- The age hold of `t₀` has ended at `t`: it named its lift, which has come. -/
theorem ageFinding_lifted {f : Finding} (hf : f ∈ ageFindings package policy t₀)
    (h : ¬ AgeHolds package policy t) :
    f.code.isTimeBound = true ∧ ∃ a, f.availableAt = some a ∧ a ≤ t := by
  have hend := not_not.mp h
  unfold ageFindings at hf hend
  cases hpub : package.publishedAt with
  | none =>
    simp only [hpub] at hf hend
    rw [hend] at hf
    simp at hf
  | some published =>
    simp only [hpub] at hf hend
    have hcome : oldEnoughAt policy published ≤ t := by
      by_contra hnot
      rw [if_neg hnot] at hend
      simp at hend
    split at hf
    · simp at hf
    · obtain rfl := List.mem_singleton.mp hf
      exact ⟨rfl, _, rfl, hcome⟩

/-- An age hold of `t` held before, and named no lift or one that is yet to come. -/
theorem ageFinding_holds (h : AgeHolds package policy t) (hle : t₀ ≤ t) :
    ∃ f ∈ ageFindings package policy t₀,
      f.code.isTimeBound = false ∨ ∃ a, f.availableAt = some a ∧ ¬ a ≤ t := by
  unfold AgeHolds ageFindings at h
  unfold ageFindings
  cases hpub : package.publishedAt with
  | none =>
    simp only [hpub] at h ⊢
    by_cases hhold : policy.holdMissingTimestamp = true
    · rw [if_pos hhold]
      exact ⟨_, List.mem_singleton.mpr rfl, .inl rfl⟩
    · rw [if_neg hhold] at h
      exact absurd rfl h
  | some published =>
    simp only [hpub] at h ⊢
    by_cases hcome : oldEnoughAt policy published ≤ t
    · rw [if_pos hcome] at h
      exact absurd rfl h
    · have hearlier : ¬ oldEnoughAt policy published ≤ t₀ := by
        intro hold
        exact hcome (Int.le_trans hold hle)
      rw [if_neg hearlier]
      exact ⟨_, List.mem_singleton.mpr rfl, .inr ⟨_, rfl, hcome⟩⟩

theorem ageHolds_anti (hle : t₀ ≤ t) (h : AgeHolds package policy t) :
    AgeHolds package policy t₀ := by
  obtain ⟨f, hf, -⟩ := ageFinding_holds h hle
  exact List.ne_nil_of_mem hf

theorem Mature.mono (hle : t₀ ≤ t) (h : Mature package policy t₀) : Mature package policy t := by
  obtain ⟨hage, published, hpub, hcome⟩ := h
  exact ⟨hage, published, hpub, Int.le_trans hcome hle⟩

/-- What nothing holds, nothing holds later. -/
theorem HoldsEnd.mono (hle : t₀ ≤ t) (h : HoldsEnd package findings done policy t₀) :
    HoldsEnd package findings done policy t := by
  obtain ⟨hage, hscans⟩ := h
  refine ⟨fun hlater => hage (ageHolds_anti hle hlater), ?_⟩
  rcases hscans with hanswered | ⟨hmature, hbypass⟩
  · exact .inl hanswered
  · exact .inr ⟨hmature.mono hle, hbypass⟩

theorem hidden_of_ageHolds
    (hstate : (evaluate package findings done policy t₀ last).state = .quarantined)
    (hle : t₀ ≤ t) (h : AgeHolds package policy t) (mode : SecurityMode) :
    (evaluate package findings done policy t₀ last).hidesFromListingsUnder t mode = true := by
  by_contra hnot
  rw [Bool.not_eq_true] at hnot
  obtain ⟨hall, -, hcome⟩ := (not_hidden_iff_of_quarantined hstate mode).mp hnot
  obtain ⟨f, hf, hcase⟩ := ageFinding_holds h hle
  have hmem : f ∈ judged package findings done policy t₀ := mem_judged_iff.mpr (.inr (.inl hf))
  have hheld := (classify_ageFinding hf).1
  rcases hcase with hcode | ⟨a, ha, hlater⟩
  · rw [hall f hmem (by simp [hheld])] at hcode
    exact absurd hcode (by decide)
  · exact hlater (hcome f hmem hheld a ha)

/-- Once the age no longer holds, the filter reads the clock of the hold. -/
theorem not_hidden_iff_clockRunsOut
    (hstate : (evaluate package findings done policy t₀ last).state = .quarantined)
    (h : ¬ AgeHolds package policy t) (mode : SecurityMode) :
    (evaluate package findings done policy t₀ last).hidesFromListingsUnder t mode = false ↔
      ClockRunsOut package findings policy t₀ t := by
  rw [not_hidden_iff_of_quarantined hstate mode]
  constructor
  · intro hlisted
    obtain ⟨hall, ⟨f, hf, hheld, hnamed⟩, hcome⟩ := hlisted
    refine ⟨?_, ?_, ?_⟩
    · intro g hg
      exact hall g (mem_judged_iff.mpr (.inl hg))
    · rcases mem_judged_iff.mp hf with hkept | hage | hpending
      · exact .inr ⟨f, hkept, hheld, hnamed⟩
      · exact .inl (List.ne_nil_of_mem hage)
      · obtain ⟨s, -, rfl⟩ := List.mem_map.mp hpending
        simp [pendingFinding, Finding.new] at hnamed
    · intro g hg
      exact hcome g (mem_judged_iff.mpr (.inl hg))
  · intro hclock
    obtain ⟨hall, hnamed, hcome⟩ := hclock
    refine ⟨?_, ?_, ?_⟩
    · intro f hf heffect
      rcases mem_judged_iff.mp hf with hkept | hage | hpending
      · exact hall f hkept heffect
      · exact (ageFinding_lifted hage h).1
      · obtain ⟨s, -, rfl⟩ := List.mem_map.mp hpending
        rfl
    · rcases hnamed with hage | ⟨f, hf, hheld, hsome⟩
      · obtain ⟨f, hf⟩ := List.exists_mem_of_ne_nil _ hage
        obtain ⟨-, a, ha, -⟩ := ageFinding_lifted hf h
        exact ⟨f, mem_judged_iff.mpr (.inr (.inl hf)), (classify_ageFinding hf).1, by simp [ha]⟩
      · exact ⟨f, mem_judged_iff.mpr (.inl hf), hheld, hsome⟩
    · intro f hf hheld a ha
      rcases mem_judged_iff.mp hf with hkept | hage | hpending
      · exact hcome f hkept hheld a ha
      · obtain ⟨-, a', ha', hle⟩ := ageFinding_lifted hage h
        rw [ha] at ha'
        obtain rfl := Option.some.inj ha'
        exact hle
      · obtain ⟨s, -, rfl⟩ := List.mem_map.mp hpending
        simp [pendingFinding, Finding.new] at ha

/-- Filter and gate, a verdict stored at `t₀` and a later `t`: they agree exactly when
the findings deny, or nothing held at `t₀`, or the age still holds at `t`, or the clock
of the hold runs out just when the scans no longer hold either. -/
theorem listing_agrees_iff (package : PackageMetadata) (findings : List Finding)
    (done : List String) (policy : SecurityPolicy) (t₀ t : DateTime) (last : Option DateTime)
    (hle : t₀ ≤ t) :
    let v := evaluate package findings done policy t₀ last
    (v.hidesFromListingsUnder t policy.mode = true ↔
        (evaluate package v.findings v.scannersDone policy t v.lastScannedAt).isServed = false) ↔
      (Denies findings policy ∨ HoldsEnd package findings done policy t₀ ∨
        AgeHolds package policy t ∨
        (ClockRunsOut package findings policy t₀ t ↔
          ScansExcused package findings done policy t)) := by
  intro v
  have hserved : (evaluate package v.findings v.scannersDone policy t v.lastScannedAt).isServed =
      true ↔ ¬ Denies findings policy ∧ HoldsEnd package findings done policy t := by
    rw [evaluate_rejudged, evaluate_served_iff]
  by_cases hdenies : Denies findings policy
  · have hhidden : v.hidesFromListingsUnder t policy.mode = true := hidden_of_denies hdenies
    simp [hhidden, ← Bool.not_eq_true, hserved, hdenies]
  · by_cases hend : HoldsEnd package findings done policy t₀
    · have hlisted : v.hidesFromListingsUnder t policy.mode = false :=
        not_hidden_of_served (evaluate_served_iff.mpr ⟨hdenies, hend⟩)
      simp [hlisted, ← Bool.not_eq_true, hserved, hdenies, hend, hend.mono hle]
    · have hstate : v.state = .quarantined := by
        have hnot : v.isServed = false := by
          rw [← Bool.not_eq_true, evaluate_served_iff]
          exact fun h => hend h.2
        rcases (isServed_eq_false_iff v).mp hnot with hheld | hdenied
        · exact hheld
        · exact absurd (evaluate_denied_iff_denies.mp hdenied) hdenies
      by_cases hage : AgeHolds package policy t
      · have hhidden : v.hidesFromListingsUnder t policy.mode = true :=
          hidden_of_ageHolds hstate hle hage _
        simp [hhidden, ← Bool.not_eq_true, hserved, HoldsEnd, hage]
      · have hlisted := not_hidden_iff_clockRunsOut (t := t) hstate hage policy.mode
        rw [← Bool.not_eq_true] at hlisted
        have hgate : HoldsEnd package findings done policy t ↔
            ScansExcused package findings done policy t := and_iff_right hage
        rw [← not_iff_not (a := v.hidesFromListingsUnder t policy.mode = true), hlisted,
          Bool.not_eq_false, hserved, hgate]
        simp [hdenies, hend, hage]

/-- A profile whose versions mature after a week. -/
def weekPolicy : SecurityPolicy :=
  { SecurityPolicy.defaultsFor "npm" with matureAge := 7 * 86400 * nanosPerSecond }

/-- A day-old scanned version: the age was its only hold, and both sides lift it. -/
theorem listing_agrees_scanned :
    let v := evaluate leftpad [] ["osv"] weekPolicy 0 (some 0)
    v.hidesFromListingsUnder day weekPolicy.mode = true ↔
      (evaluate leftpad v.findings v.scannersDone weekPolicy day v.lastScannedAt).isServed =
        false := by
  have hkept : kept [] weekPolicy = [] := rfl
  have hclock : ClockRunsOut leftpad [] weekPolicy 0 day := by
    refine ⟨by simp [hkept], .inl ?_, by simp [hkept]⟩
    exact List.cons_ne_nil (minAgeFinding weekPolicy 0 0) []
  have hscans : ScansExcused leftpad [] ["osv"] weekPolicy day := by
    refine .inl ⟨?_, by simp [hkept]⟩
    intro h
    obtain ⟨s, hs, hnot⟩ := h
    exact hnot hs
  exact (listing_agrees_iff leftpad [] ["osv"] weekPolicy 0 day (some 0) (by decide)).mpr
    (.inr (.inr (.inr (iff_of_true hclock hscans))))

/-- Held for its age and for a scan: the listing lifts the hold after a day, and the
gate still refuses the version as unscanned. -/
theorem listed_unscanned :
    ¬ ∀ (package : PackageMetadata) (findings : List Finding) (done : List String)
      (policy : SecurityPolicy) (t₀ t : DateTime) (last : Option DateTime), t₀ ≤ t →
      let v := evaluate package findings done policy t₀ last
      (v.hidesFromListingsUnder t policy.mode = true ↔
        (evaluate package v.findings v.scannersDone policy t v.lastScannedAt).isServed =
          false) := by
  intro h
  have hagree := h leftpad [] [] weekPolicy 0 day none (by decide)
  exact absurd hagree (by decide)

end Listed

end BatleHub.VerdictListings
