import BatleHub.VerdictEvaluation
import Mathlib.Data.Fintype.EquivFin
import Mathlib.Data.List.Perm.Subperm
import Mathlib.Order.MinMax

/-!
How the state of a verdict moves with what it is judged from (`services/verdict.rs`). More
findings, fewer scanners that answered or an earlier clock leave findings that outweigh
the former ones, and a list that outweighs another is judged no milder. What is served has
been scanned or is mature, as long as the mature age is a span the clock's library holds.
An evaluation that adds an age past chrono's last date panics and leaves no state at all.
-/
namespace BatleHub.VerdictOrder

open LocalPackages Verdicts VerdictEvaluation

section Outweighing

/-- The same code, at no lower severity. -/
def Outweighs (g f : Finding) : Prop := g.code = f.code ∧ f.severity ≤ g.severity

def OutweighsAll (gs fs : List Finding) : Prop := ∀ f ∈ fs, ∃ g ∈ gs, Outweighs g f

theorem Outweighs.refl (f : Finding) : Outweighs f f := ⟨rfl, Nat.le_refl _⟩

theorem outweighsAll_of_subset {fs gs : List Finding} (h : fs ⊆ gs) : OutweighsAll gs fs :=
  fun f hf => ⟨f, h hf, Outweighs.refl f⟩

theorem OutweighsAll.append {fs gs fs' gs' : List Finding} (h : OutweighsAll gs fs)
    (h' : OutweighsAll gs' fs') : OutweighsAll (gs ++ gs') (fs ++ fs') := by
  intro f hf
  rcases List.mem_append.mp hf with hleft | hright
  · obtain ⟨g, hg, hout⟩ := h f hleft
    exact ⟨g, List.mem_append_left _ hg, hout⟩
  · obtain ⟨g, hg, hout⟩ := h' f hright
    exact ⟨g, List.mem_append_right _ hg, hout⟩

variable {policy : SecurityPolicy} {f g : Finding}

theorem forgeRefEffect_rank_le (h : f.severity ≤ g.severity) {effect : VerdictState}
    (hf : forgeRefEffect f policy = some effect) :
    ∃ effect', forgeRefEffect g policy = some effect' ∧ effect.rank ≤ effect'.rank := by
  unfold forgeRefEffect at hf ⊢
  cases hfs : f.severity <;> cases hgs : g.severity <;> cases hmode : policy.mode <;>
    simp only [hfs, hgs, hmode, Option.some.injEq] at h hf ⊢ <;>
    first
    | exact absurd h (by decide)
    | (subst hf; exact ⟨_, rfl, by decide⟩)

/-- What outweighs a finding has at least its effect. -/
theorem classify_rank_le (h : Outweighs g f) {effect : VerdictState}
    (hf : classify policy f = some effect) :
    ∃ effect', classify policy g = some effect' ∧ effect.rank ≤ effect'.rank := by
  obtain ⟨hcode, hseverity⟩ := h
  unfold classify at hf ⊢
  rw [hcode]
  split at hf
  · exact ⟨effect, by rw [if_pos ‹_›, hf], Nat.le_refl _⟩
  · rw [if_neg ‹_›]
    cases hc : f.code <;> simp only [hc] at hf ⊢ <;>
      first
      | exact ⟨effect, hf, Nat.le_refl _⟩
      | exact ⟨effect, threshold_of_le hseverity hf, Nat.le_refl _⟩
      | exact forgeRefEffect_rank_le hseverity hf

theorem threshold_ne_quarantined (severity : Severity) :
    threshold severity policy ≠ some .quarantined := by
  unfold threshold
  split
  · simp
  · cases policy.mode <;> simp

theorem forgeRefEffect_ne_quarantined (f : Finding) :
    forgeRefEffect f policy ≠ some .quarantined := by
  unfold forgeRefEffect
  split <;> simp

/-- A hold is the code's doing: it does not depend on the severity. -/
theorem classify_quarantined_of_code (hcode : g.code = f.code)
    (hf : classify policy f = some .quarantined) : classify policy g = some .quarantined := by
  unfold classify at hf ⊢
  rw [hcode]
  split at hf
  · cases hf
  · rw [if_neg ‹_›]
    cases hc : f.code <;> simp only [hc] at hf ⊢ <;>
      first
      | exact hf
      | exact absurd hf (threshold_ne_quarantined _)
      | exact absurd hf (forgeRefEffect_ne_quarantined _)

end Outweighing

section Settling
variable (policy : SecurityPolicy)

theorem rank_worse (a b : VerdictState) : (a.worse b).rank = max a.rank b.rank := by
  cases a <;> cases b <;> rfl

theorem rank_injective {a b : VerdictState} (h : a.rank = b.rank) : a = b := by
  cases a <;> cases b <;> first | rfl | exact absurd h (by decide)

theorem le_rank_foldl_iff (folded : Folded) (findings : List Finding) (r : ℕ) :
    r ≤ (findings.foldl (foldOne policy) folded).state.rank ↔
      r ≤ folded.state.rank ∨
        ∃ f ∈ findings, ∃ effect, classify policy f = some effect ∧ r ≤ effect.rank := by
  induction findings generalizing folded with
  | nil => simp
  | cons f rest ih =>
    rw [List.foldl_cons, ih, foldOne_state]
    cases hf : classify policy f with
    | none => simp [hf]
    | some effect =>
      simp only [Option.elim_some, rank_worse, le_max_iff, List.mem_cons, exists_eq_or_imp, hf,
        Option.some.injEq, exists_eq_left', or_assoc]

/-- How bad a fold is: as bad as the worst of the effects. -/
theorem le_rank_fold_iff (findings : List Finding) (r : ℕ) :
    r ≤ (fold policy findings).state.rank ↔
      r = 0 ∨ ∃ f ∈ findings, ∃ effect, classify policy f = some effect ∧ r ≤ effect.rank := by
  rw [fold, le_rank_foldl_iff]
  simp [VerdictState.rank]

theorem exists_of_foldl_state (folded : Folded) (findings : List Finding) :
    (findings.foldl (foldOne policy) folded).state = folded.state ∨
      ∃ f ∈ findings, classify policy f = some (findings.foldl (foldOne policy) folded).state := by
  induction findings generalizing folded with
  | nil => exact .inl rfl
  | cons f rest ih =>
    rw [List.foldl_cons]
    rcases ih (foldOne policy folded f) with hsame | ⟨g, hg, heffect⟩
    · rw [hsame, foldOne_state]
      cases hf : classify policy f with
      | none => exact .inl rfl
      | some effect =>
        rw [Option.elim_some]
        unfold VerdictState.worse
        split
        · exact .inr ⟨f, List.mem_cons_self, hf⟩
        · exact .inl rfl
    · exact .inr ⟨g, List.mem_cons_of_mem f hg, heffect⟩

/-- A hold is some finding's. -/
theorem exists_of_fold_quarantined {findings : List Finding}
    (h : (fold policy findings).state = .quarantined) :
    ∃ f ∈ findings, classify policy f = some .quarantined := by
  rcases exists_of_foldl_state policy ⟨.allowed, [], none, []⟩ findings with hsame | hsome
  · rw [fold, hsame] at h
    cases h
  · rw [← fold, h] at hsome
    exact hsome

variable (package : PackageMetadata) (now : DateTime)

/-- The state of a verdict folded from the findings. -/
def settled (findings : List Finding) : VerdictState :=
  if maturityLifts (fold policy findings) package policy now then .warned
  else (fold policy findings).state

theorem evaluate_state (findings : List Finding) (done : List String) (last : Option DateTime) :
    (evaluate package findings done policy now last).state =
      settled policy package now (judged package findings done policy now) := rfl

/-- Old enough to be served unscanned, as the clock's library counts. -/
def CountsAsMature : Prop :=
  ∃ published, package.publishedAt = some published ∧
    published + fromStdOrDefault policy.matureAge ≤ now

theorem holdCodes_ne_nil {findings : List Finding}
    (h : (fold policy findings).state = .quarantined) :
    (fold policy findings).holdCodes ≠ [] := by
  intro hnil
  obtain ⟨f, hf, hhold⟩ := exists_of_fold_quarantined policy h
  rw [fold_holdCodes, List.map_eq_nil_iff, List.filter_eq_nil_iff] at hnil
  exact hnil f hf (by simpa using hhold)

theorem holdCodes_all_iff (findings : List Finding) :
    (fold policy findings).holdCodes.all ReasonCode.isMaturityBypassable = true ↔
      ∀ f ∈ findings, classify policy f = some .quarantined →
        f.code.isMaturityBypassable = true := by
  rw [fold_holdCodes]
  simp [← imp_iff_not_or]

theorem maturityLifts_iff (findings : List Finding) :
    maturityLifts (fold policy findings) package policy now = true ↔
      (fold policy findings).state = .quarantined ∧ policy.matureAge ≠ 0 ∧
        (∀ f ∈ findings, classify policy f = some .quarantined →
          f.code.isMaturityBypassable = true) ∧ CountsAsMature policy package now := by
  unfold maturityLifts
  split
  · rename_i hcond
    simp only [Bool.false_eq_true, false_iff]
    rintro ⟨hstate, hage, -, -⟩
    rcases hcond with hne | hnil | hzero
    · exact hne hstate
    · exact holdCodes_ne_nil policy hstate hnil
    · exact hage hzero
  · rename_i hcond
    simp only [not_or, not_not] at hcond
    obtain ⟨hstate, -, hage⟩ := hcond
    simp only [hstate, ne_eq, hage, not_false_eq_true, true_and]
    rw [← holdCodes_all_iff]
    cases hbypass : (fold policy findings).holdCodes.all ReasonCode.isMaturityBypassable with
    | false => simp
    | true =>
      unfold CountsAsMature
      cases package.publishedAt <;> simp

theorem rank_settled_le (findings : List Finding) :
    (settled policy package now findings).rank ≤ (fold policy findings).state.rank := by
  unfold settled
  split
  · rename_i hlift
    rw [((maturityLifts_iff policy package now findings).mp hlift).1]
    decide
  · exact Nat.le_refl _

variable {policy package now}

/-- What the one list of findings does to a verdict, the other does at least. -/
structure Covers (policy : SecurityPolicy) (gs fs : List Finding) : Prop where
  effects : ∀ f ∈ fs, ∀ effect, classify policy f = some effect →
    ∃ g ∈ gs, ∃ effect', classify policy g = some effect' ∧ effect.rank ≤ effect'.rank
  holds : ∀ f ∈ fs, classify policy f = some .quarantined →
    ∃ g ∈ gs, g.code = f.code ∧ classify policy g = some .quarantined

theorem OutweighsAll.covers {fs gs : List Finding} (h : OutweighsAll gs fs) :
    Covers policy gs fs where
  effects := by
    intro f hf effect heffect
    obtain ⟨g, hg, hout⟩ := h f hf
    exact ⟨g, hg, classify_rank_le hout heffect⟩
  holds := by
    intro f hf hhold
    obtain ⟨g, hg, hout⟩ := h f hf
    exact ⟨g, hg, hout.1, classify_quarantined_of_code hout.1 hhold⟩

theorem rank_fold_le {fs gs : List Finding} (h : Covers policy gs fs) :
    (fold policy fs).state.rank ≤ (fold policy gs).state.rank := by
  rw [le_rank_fold_iff]
  rcases (le_rank_fold_iff policy fs _).mp (Nat.le_refl _) with hzero | ⟨f, hf, effect, heffect, hle⟩
  · exact .inl hzero
  · obtain ⟨g, hg, effect', heffect', hrank⟩ := h.effects f hf effect heffect
    exact .inr ⟨g, hg, effect', heffect', Nat.le_trans hle hrank⟩

/-- What covers is judged no milder, and an earlier clock is no milder either. -/
theorem rank_settled_mono {fs gs : List Finding} {later : DateTime} (h : Covers policy gs fs)
    (hclock : now ≤ later) :
    (settled policy package later fs).rank ≤ (settled policy package now gs).rank := by
  have hfold := rank_fold_le h
  by_cases hlift : maturityLifts (fold policy gs) package policy now = true
  · -- the heavier list is lifted, and so is the lighter one where it is held at all
    obtain ⟨hstate, hage, hbypass, published, hdated, hmature⟩ :=
      (maturityLifts_iff policy package now gs).mp hlift
    have hwarned : settled policy package now gs = .warned := if_pos hlift
    rw [hwarned]
    by_cases hheld : (fold policy fs).state = .quarantined
    · have hlift' : maturityLifts (fold policy fs) package policy later = true := by
        rw [maturityLifts_iff]
        refine ⟨hheld, hage, ?_, published, hdated, Int.le_trans hmature hclock⟩
        intro f hf hhold
        obtain ⟨g, hg, hcode, hhold'⟩ := h.holds f hf hhold
        rw [← hcode]
        exact hbypass g hg hhold'
      rw [settled, if_pos hlift']
    · refine Nat.le_trans (rank_settled_le policy package later fs) ?_
      rw [hstate] at hfold
      cases hfs : (fold policy fs).state with
      | allowed => decide
      | warned => decide
      | quarantined => exact absurd hfs hheld
      | denied => exact absurd (hfs ▸ hfold) (by decide)
  · have hgs : settled policy package now gs = (fold policy gs).state := if_neg hlift
    rw [hgs]
    exact Nat.le_trans (rank_settled_le policy package later fs) hfold

/-- Lists that cover each other settle alike. -/
theorem settled_eq {fs gs : List Finding} (h : Covers policy gs fs) (h' : Covers policy fs gs) :
    settled policy package now fs = settled policy package now gs :=
  rank_injective (Nat.le_antisymm (rank_settled_mono h (Int.le_refl now))
    (rank_settled_mono h' (Int.le_refl now)))

end Settling

section Moving
variable {package : PackageMetadata} {policy : SecurityPolicy} {findings : List Finding}
  {done : List String} {now : DateTime}

theorem severity_escalatedBlock_le {n n' : ℕ} (h : n ≤ n') (scanner : String) (esc : Escalation)
    (f : Finding) :
    (escalatedBlock n scanner esc f).severity ≤ (escalatedBlock n' scanner esc f).severity := by
  by_cases hn : max esc.count 1 ≤ n ∧ hits scanner esc f = true
  · have hn' : max esc.count 1 ≤ n' ∧ hits scanner esc f = true := ⟨le_trans hn.1 h, hn.2⟩
    rw [escalatedBlock, if_pos hn, escalatedBlock, if_pos hn']
    exact Nat.le_refl _
  · rw [escalatedBlock, if_neg hn]
    obtain ⟨severity, hle, heq⟩ := raised_escalatedBlock n' scanner esc f
    rw [heq]
    exact hle

theorem hitCount_le {fs gs : List Finding} (h : fs.Subperm gs) (scanner : String)
    (esc : Escalation) : hitCount fs scanner esc ≤ hitCount gs scanner esc :=
  (h.filter _).length_le

theorem escalate_outweighs {fs gs : List Finding} (h : fs.Subperm gs) :
    OutweighsAll (escalate policy gs) (escalate policy fs) := by
  intro f hf
  rw [escalate_eq_map] at hf
  obtain ⟨x, hx, rfl⟩ := List.mem_map.mp hf
  refine ⟨escalatedBy policy.escalation.entries gs x, ?_, ?_, ?_⟩
  · rw [escalate_eq_map]
    exact List.mem_map_of_mem (h.subset hx)
  · rw [(raised_escalatedBy _ _ x).code_eq, (raised_escalatedBy _ _ x).code_eq]
  · unfold escalatedBy
    split
    · exact Nat.le_refl _
    · exact severity_escalatedBlock_le (hitCount_le h _ _) _ _ x

theorem pendingFindings_subset {done' : List String} (h : done ⊆ done') :
    pendingFindings policy done' ⊆ pendingFindings policy done := by
  apply List.map_subset
  intro s hs
  rw [List.mem_filter, decide_eq_true_iff] at hs ⊢
  exact ⟨hs.1, fun hmem => hs.2 (h hmem)⟩

theorem minAge_outweighs (policy : SecurityPolicy) (published now later : DateTime) :
    Outweighs (minAgeFinding policy published now) (minAgeFinding policy published later) := by
  have hcode : ∀ t, (minAgeFinding policy published t).code = .minAgeNotMet := fun _ => rfl
  have hseverity : ∀ t, (minAgeFinding policy published t).severity = .high := fun _ => rfl
  rw [Outweighs, hcode, hcode, hseverity, hseverity]
  exact ⟨rfl, Nat.le_refl _⟩

theorem ageFindings_outweighs {later : DateTime} (h : now ≤ later) :
    OutweighsAll (ageFindings package policy now) (ageFindings package policy later) := by
  intro f hf
  unfold ageFindings at hf ⊢
  cases hdate : package.publishedAt with
  | none =>
    simp only [hdate] at hf
    exact ⟨f, hf, Outweighs.refl f⟩
  | some published =>
    simp only [hdate] at hf ⊢
    split at hf
    · cases hf
    · rename_i hyoung
      have hyoung' : ¬ oldEnoughAt policy published ≤ now :=
        fun hold => hyoung (Int.le_trans hold h)
      obtain rfl := List.mem_singleton.mp hf
      refine ⟨minAgeFinding policy published now, ?_, minAge_outweighs policy published now later⟩
      rw [if_neg hyoung']
      exact List.mem_singleton_self _

/-- Fewer findings, more scanners done and a later clock: all judge milder. -/
theorem rank_evaluate_le {more : List Finding} {done' : List String} {later : DateTime}
    (hfindings : findings.Subperm more) (hdone : done ⊆ done') (hclock : now ≤ later)
    (last last' : Option DateTime) :
    (evaluate package findings done' policy later last).state.rank ≤
      (evaluate package more done policy now last').state.rank := by
  rw [evaluate_state, evaluate_state]
  refine rank_settled_mono (OutweighsAll.covers ?_) hclock
  refine OutweighsAll.append (OutweighsAll.append ?_ (ageFindings_outweighs hclock)) ?_
  · exact escalate_outweighs (hfindings.filter _)
  · exact outweighsAll_of_subset (pendingFindings_subset hdone)

end Moving

section Laws
variable (package : PackageMetadata) (policy : SecurityPolicy) (findings : List Finding)
  (done : List String) (now : DateTime) (last : Option DateTime)

/-- Dated, and at least the mature age old, which is not zero. -/
def Mature : Prop :=
  policy.matureAge ≠ 0 ∧
    ∃ published, package.publishedAt = some published ∧ published + policy.matureAge ≤ now

/-- Both evaluations return, and the first one is no worse. -/
def NoWorse (r r' : Option Verdict) : Prop :=
  ∃ v v', r = some v ∧ r' = some v' ∧ v.state.rank ≤ v'.state.rank

/-- What is promised of the verdict's state. -/
structure VerdictLaws : Prop where
  findings_add : ∀ more, findings.Subperm more →
    NoWorse (evaluateChecked package policy now findings done last)
      (evaluateChecked package policy now more done last)
  done_add : ∀ more, done ⊆ more →
    NoWorse (evaluateChecked package policy now findings more last)
      (evaluateChecked package policy now findings done last)
  later : ∀ t, now ≤ t →
    NoWorse (evaluateChecked package policy t findings done last)
      (evaluateChecked package policy now findings done last)
  scanned : ∀ v, evaluateChecked package policy now findings done last = some v →
    v.state.isServed = true →
    (∀ s ∈ policy.requiredScanners, s ∈ done) ∨ Mature package policy now

/-- A scanner's finding refuses the version or holds it for more than nobody having looked. -/
def ContentKeepsBack : Prop :=
  ∃ f ∈ escalate policy (content findings), classify policy f = some .denied ∨
    classify policy f = some .quarantined ∧ f.code.isMaturityBypassable = false

/-- A scanner's finding does, or its age. -/
def KeptBack : Prop := ContentKeepsBack policy findings ∨ ageFindings package policy now ≠ []

/-- The mature age is a span the library holds, or nothing turns on it. -/
def MatureAgeCounts : Prop :=
  policy.matureAge ≤ maxSpan ∨ (∀ s ∈ policy.requiredScanners, s ∈ done) ∨
    Mature package policy now ∨ (¬ ∃ published, package.publishedAt = some published ∧
      published ≤ now) ∨ KeptBack package policy findings now

/-- Whether the version is mature is not asked, now or later or with more findings. -/
def NeverAsked : Prop :=
  ContentKeepsBack policy findings ∨
    ageFindings package policy now ≠ [] ∧ (∀ s ∈ policy.requiredScanners, s ∈ done) ∧
      ∀ f ∈ escalate policy (content findings), classify policy f ≠ some .quarantined

/-- The ages that are added have a date, and the mature age counts as what it is. -/
def DatesCount : Prop :=
  AgeFits package policy ∧
    (MatureFits package policy ∧ MatureAgeCounts package policy findings done now ∨
      NeverAsked package policy findings done now)

variable {package policy findings done now}

theorem pending_of_unscanned (package : PackageMetadata) (findings : List Finding)
    (now : DateTime) (h : ¬ ∀ s ∈ policy.requiredScanners, s ∈ done) :
    ∃ f ∈ judged package findings done policy now,
      f.code = .scanPending ∧ classify policy f = some .quarantined := by
  push Not at h
  obtain ⟨s, hs, hnot⟩ := h
  refine ⟨pendingFinding s, ?_, rfl, rfl⟩
  apply List.mem_append_right
  exact List.mem_map_of_mem (List.mem_filter.mpr ⟨hs, by simpa using hnot⟩)

theorem classify_of_mem_ageFindings {f : Finding} (h : f ∈ ageFindings package policy now) :
    classify policy f = some .quarantined ∧ f.code.isMaturityBypassable = false := by
  obtain rfl | ⟨published, rfl⟩ := ageFindings_cases h
  · exact ⟨rfl, rfl⟩
  · exact ⟨rfl, rfl⟩

/-- What keeps a version back is among the findings judged; a scan that is missing is not. -/
theorem keptBack_iff (done : List String) : KeptBack package policy findings now ↔
    ∃ f ∈ judged package findings done policy now, classify policy f = some .denied ∨
      classify policy f = some .quarantined ∧ f.code.isMaturityBypassable = false := by
  constructor
  · rintro (⟨f, hf, hkept⟩ | hage)
    · exact ⟨f, List.mem_append_left _ (List.mem_append_left _ hf), hkept⟩
    · obtain ⟨f, hf⟩ := List.exists_mem_of_ne_nil _ hage
      exact ⟨f, List.mem_append_left _ (List.mem_append_right _ hf),
        .inr (classify_of_mem_ageFindings hf)⟩
  · rintro ⟨f, hf, hkept⟩
    rcases List.mem_append.mp hf with hleft | hpending
    · rcases List.mem_append.mp hleft with hcontent | hage
      · exact .inl ⟨f, hcontent, hkept⟩
      · exact .inr (List.ne_nil_of_mem hage)
    · obtain ⟨s, -, rfl⟩ := List.mem_map.mp hpending
      rcases hkept with hdenied | ⟨-, hcode⟩
      · cases hdenied
      · cases hcode

/-- Unscanned, a version is served exactly when maturity lifts its hold. -/
theorem served_iff_of_unscanned (h : ¬ ∀ s ∈ policy.requiredScanners, s ∈ done) :
    (evaluate package findings done policy now last).state.isServed = true ↔
      policy.matureAge ≠ 0 ∧ ¬ KeptBack package policy findings now ∧
        CountsAsMature policy package now := by
  obtain ⟨p, hp, -, hhold⟩ := pending_of_unscanned package findings now h
  have hnotServed : ¬ (fold policy (judged package findings done policy now)).state.isServed =
      true := by
    rw [fold_served_iff]
    intro hserved
    have hq := hserved p hp .quarantined hhold
    cases hq
  rw [evaluate_state, keptBack_iff done]
  unfold settled
  split
  · rename_i hlift
    obtain ⟨hstate, hage, hbypass, hmature⟩ := (maturityLifts_iff policy package now _).mp hlift
    refine ⟨fun _ => ⟨hage, ?_, hmature⟩, fun _ => rfl⟩
    rintro ⟨f, hf, hdenied | ⟨hq, hcode⟩⟩
    · have hdeniedState := (fold_denied_iff policy _).mpr ⟨f, hf, hdenied⟩
      rw [hstate] at hdeniedState
      cases hdeniedState
    · rw [hbypass f hf hq] at hcode
      cases hcode
  · rename_i hlift
    refine ⟨fun hserved => absurd hserved hnotServed, ?_⟩
    rintro ⟨hage, hkept, hmature⟩
    exfalso
    apply hlift
    rw [maturityLifts_iff]
    refine ⟨?_, hage, ?_, hmature⟩
    · cases hstate : (fold policy (judged package findings done policy now)).state with
      | allowed => rw [hstate] at hnotServed; exact absurd rfl hnotServed
      | warned => rw [hstate] at hnotServed; exact absurd rfl hnotServed
      | quarantined => rfl
      | denied =>
        obtain ⟨f, hf, hdenied⟩ := (fold_denied_iff policy _).mp hstate
        exact absurd ⟨f, hf, .inl hdenied⟩ hkept
    · intro f hf hq
      by_contra hcode
      exact hkept ⟨f, hf, .inr ⟨hq, by simpa using hcode⟩⟩

theorem countsAsMature_of_le (h : policy.matureAge ≤ maxSpan) :
    CountsAsMature policy package now ↔
      ∃ published, package.publishedAt = some published ∧ published + policy.matureAge ≤ now := by
  unfold CountsAsMature fromStdOrDefault
  rw [if_pos h]

/-- A span too long for the library counts as none at all. -/
theorem countsAsMature_of_lt (h : maxSpan < policy.matureAge) :
    CountsAsMature policy package now ↔
      ∃ published, package.publishedAt = some published ∧ published ≤ now := by
  unfold CountsAsMature fromStdOrDefault
  simp [Nat.not_le.mpr h]

variable (package policy findings done now)

theorem scanned_iff :
    ((evaluate package findings done policy now last).state.isServed = true →
      (∀ s ∈ policy.requiredScanners, s ∈ done) ∨ Mature package policy now) ↔
      MatureAgeCounts package policy findings done now := by
  by_cases hscanned : ∀ s ∈ policy.requiredScanners, s ∈ done
  · exact ⟨fun _ => .inr (.inl hscanned), fun _ _ => .inl hscanned⟩
  rw [served_iff_of_unscanned last hscanned]
  unfold MatureAgeCounts
  rcases Nat.lt_or_ge maxSpan policy.matureAge with hlong | hfits
  · have hage : policy.matureAge ≠ 0 := Nat.ne_zero_of_lt hlong
    rw [countsAsMature_of_lt hlong]
    simp only [Nat.not_le.mpr hlong, hscanned, hage, ne_eq, not_false_eq_true, true_and, false_or]
    by_cases hkept : KeptBack package policy findings now <;>
      by_cases hmature : Mature package policy now <;> simp [hkept, hmature]
  · rw [countsAsMature_of_le hfits]
    simp only [hfits, true_or, iff_true]
    rintro ⟨hage, -, hmature⟩
    exact .inr ⟨hage, hmature⟩

variable {package policy findings done now}

/-- Maturity is asked where something holds the version and nothing keeps it back. -/
theorem maturityAsked_iff :
    MaturityAsked (fold policy (judged package findings done policy now)) ↔
      (∃ f ∈ judged package findings done policy now, classify policy f = some .quarantined) ∧
        ¬ KeptBack package policy findings now := by
  unfold MaturityAsked
  rw [holdCodes_all_iff, keptBack_iff done]
  constructor
  · rintro ⟨hstate, -, hbypass⟩
    refine ⟨exists_of_fold_quarantined policy hstate, ?_⟩
    rintro ⟨f, hf, hdenied | ⟨hhold, hcode⟩⟩
    · have hstate' := (fold_denied_iff policy _).mpr ⟨f, hf, hdenied⟩
      rw [hstate] at hstate'
      cases hstate'
    · rw [hbypass f hf hhold] at hcode
      cases hcode
  · rintro ⟨⟨f, hf, hhold⟩, hkept⟩
    have hstate : (fold policy (judged package findings done policy now)).state =
        .quarantined := by
      have hserved : ¬ (fold policy (judged package findings done policy now)).state.isServed =
          true := by
        rw [fold_served_iff]
        intro hserved
        exact absurd (hserved f hf .quarantined hhold) (by decide)
      cases hcase : (fold policy (judged package findings done policy now)).state with
      | allowed => exact absurd (by rw [hcase]; rfl) hserved
      | warned => exact absurd (by rw [hcase]; rfl) hserved
      | quarantined => rfl
      | denied =>
        obtain ⟨g, hg, hdenied⟩ := (fold_denied_iff policy _).mp hcase
        exact absurd ⟨g, hg, .inl hdenied⟩ hkept
    refine ⟨hstate, holdCodes_ne_nil policy hstate, fun g hg hhold' => ?_⟩
    by_contra hcode
    exact hkept ⟨g, hg, .inr ⟨hhold', by simpa using hcode⟩⟩

theorem ContentKeepsBack.mono {more : List Finding} (h : ContentKeepsBack policy findings)
    (hmore : findings.Subperm more) : ContentKeepsBack policy more := by
  obtain ⟨f, hf, hkept⟩ := h
  have houtweighs : OutweighsAll (escalate policy (content more))
      (escalate policy (content findings)) := escalate_outweighs (hmore.filter _)
  obtain ⟨g, hg, hout⟩ := houtweighs f hf
  refine ⟨g, hg, ?_⟩
  rcases hkept with hdenied | ⟨hhold, hcode⟩
  · obtain ⟨effect, heffect, hrank⟩ := classify_rank_le hout hdenied
    left
    rw [heffect]
    cases effect with
    | denied => rfl
    | allowed => exact absurd hrank (by decide)
    | warned => exact absurd hrank (by decide)
    | quarantined => exact absurd hrank (by decide)
  · exact .inr ⟨classify_quarantined_of_code hout.1 hhold, by rw [hout.1, hcode]⟩

theorem exists_fresh (names : List String) : ∃ s, s ∉ names := by
  obtain ⟨chars, hfresh⟩ := Infinite.exists_notMem_finset (names.map String.toList).toFinset
  refine ⟨String.ofList chars, fun hmem => hfresh ?_⟩
  rw [List.mem_toFinset, List.mem_map]
  exact ⟨_, hmem, String.toList_ofList⟩

/-- A finding of a scanner that has said nothing yet leaves the others as they were. -/
theorem escalate_append_fresh (policy : SecurityPolicy) (findings : List Finding) (f : Finding)
    (h : ∀ g ∈ findings, g.scanner ≠ f.scanner) :
    ∃ g, Raised f g ∧ escalate policy (findings ++ [f]) = escalate policy findings ++ [g] := by
  refine ⟨_, raised_escalatedBy policy.escalation.entries (findings ++ [f]) f, ?_⟩
  rw [escalate_eq_map, escalate_eq_map, List.map_append, List.map_singleton]
  congr 1
  apply List.map_congr_left
  intro g hg
  unfold escalatedBy
  cases policy.escalation.entries.dlookup g.scanner with
  | none => rfl
  | some esc =>
    have hmiss : hits g.scanner esc f = false := by simp [hits, (h g hg).symm]
    simp [hitCount, List.filter_append, hmiss]

/-- One more finding, that a scan is missing, leaves the version to maturity alone. -/
theorem maturityAsked_of_more (done : List String) (hcontent : ¬ ContentKeepsBack policy findings)
    (hold : ageFindings package policy now = []) :
    ∃ more, findings.Subperm more ∧
      MaturityAsked (fold policy (judged package more done policy now)) := by
  obtain ⟨scanner, hfresh⟩ :=
    exists_fresh (ageScanner :: pendingScanner :: findings.map (·.scanner))
  simp only [List.mem_cons, List.mem_map, not_or, not_exists, not_and] at hfresh
  obtain ⟨hnotAge, hnotPending, hother⟩ := hfresh
  let f := Finding.new scanner .pending .scanPending .high ""
  have hkept : content [f] = [f] := by
    apply List.filter_eq_self.mpr
    intro g hg
    obtain rfl := List.mem_singleton.mp hg
    simp [f, Finding.new, hnotAge, hnotPending]
  obtain ⟨g, hraised, hescalate⟩ := escalate_append_fresh policy (content findings) f
    (fun g hg => hother g (mem_content.mp hg).1)
  have hjudged : escalate policy (content (findings ++ [f])) =
      escalate policy (content findings) ++ [g] := by
    rw [content, List.filter_append, ← content, ← content, hkept, hescalate]
  have hhold : classify policy g = some .quarantined :=
    classify_quarantined_of_code hraised.code_eq (f := f) rfl
  refine ⟨findings ++ [f], (List.sublist_append_left findings [f]).subperm,
    maturityAsked_iff.mpr ⟨⟨g, ?_, hhold⟩, ?_⟩⟩
  · apply List.mem_append_left
    apply List.mem_append_left
    rw [hjudged]
    exact List.mem_append_right _ (List.mem_singleton_self g)
  · rintro (⟨x, hx, hback⟩ | hage)
    · rw [hjudged, List.mem_append, List.mem_singleton] at hx
      rcases hx with hx | rfl
      · exact hcontent ⟨x, hx, hback⟩
      · rcases hback with hdenied | ⟨-, hcode⟩
        · rw [hhold] at hdenied
          cases hdenied
        · rw [hraised.code_eq] at hcode
          cases hcode
    · exact hage hold

/-- Once it is old enough, what holds the version then is left to maturity. -/
theorem maturityAsked_of_later {published : DateTime}
    (hdated : package.publishedAt = some published)
    (hyoung : ageFindings package policy now ≠ []) (hcontent : ¬ ContentKeepsBack policy findings)
    (hheld : (∀ s ∈ policy.requiredScanners, s ∈ done) →
      ∃ f ∈ escalate policy (content findings), classify policy f = some .quarantined) :
    now ≤ oldEnoughAt policy published ∧
      MaturityAsked (fold policy (judged package findings done policy
        (oldEnoughAt policy published))) := by
  have hold : ageFindings package policy (oldEnoughAt policy published) = [] := by
    simp [ageFindings, hdated]
  refine ⟨?_, maturityAsked_iff.mpr ⟨?_, ?_⟩⟩
  · by_contra hlate
    apply hyoung
    simp [ageFindings, hdated, Int.le_of_lt (Int.not_le.mp hlate)]
  · by_cases hscanned : ∀ s ∈ policy.requiredScanners, s ∈ done
    · obtain ⟨f, hf, hhold⟩ := hheld hscanned
      exact ⟨f, List.mem_append_left _ (List.mem_append_left _ hf), hhold⟩
    · obtain ⟨f, hf, -, hhold⟩ := pending_of_unscanned package findings
        (oldEnoughAt policy published) hscanned
      exact ⟨f, hf, hhold⟩
  · rintro (hback | hage)
    · exact hcontent hback
    · exact hage hold

/-- Where the day of maturity has no date, some judgement that the laws speak of asks for it
unless it is never asked. -/
theorem neverAsked_of_laws {last : Option DateTime}
    (h : VerdictLaws package policy findings done now last)
    (hfits : ¬ MatureFits package policy) : NeverAsked package policy findings done now := by
  by_contra hnever
  unfold NeverAsked at hnever
  push Not at hnever
  obtain ⟨hcontent, hheld⟩ := hnever
  by_cases hyoung : ageFindings package policy now = []
  · obtain ⟨more, hmore, hasked⟩ := maturityAsked_of_more done hcontent hyoung
    obtain ⟨_, v, -, hv, -⟩ := h.findings_add more hmore
    exact hfits ((evaluateChecked_eq_some_iff.mp hv).2.1 hasked)
  · have hdated : ∃ published, package.publishedAt = some published := by
      unfold MatureFits at hfits
      push Not at hfits
      exact hfits.2.imp fun _ hpublished => hpublished.1
    obtain ⟨published, hdated⟩ := hdated
    obtain ⟨hlate, hasked⟩ := maturityAsked_of_later hdated hyoung hcontent (hheld hyoung)
    obtain ⟨v, _, hv, -, -⟩ := h.later _ hlate
    exact hfits ((evaluateChecked_eq_some_iff.mp hv).2.1 hasked)

/-- What is never asked is asked by no judgement that the laws speak of. -/
theorem NeverAsked.not_asked (h : NeverAsked package policy findings done now)
    {more : List Finding} {done' : List String} {t : DateTime} (hmore : findings.Subperm more)
    (hdone : done ⊆ done') (ht : now = t ∨ more = findings) :
    ¬ MaturityAsked (fold policy (judged package more done' policy t)) := by
  rw [maturityAsked_iff]
  rintro ⟨⟨f, hf, hhold⟩, hkept⟩
  rcases h with hcontent | ⟨hyoung, hscanned, hnone⟩
  · exact hkept (.inl (hcontent.mono hmore))
  · rcases ht with rfl | rfl
    · exact hkept (.inr hyoung)
    -- nothing but its age holds it at that time
    · rcases List.mem_append.mp hf with hleft | hpending
      · rcases List.mem_append.mp hleft with hf | hage
        · exact hnone f hf hhold
        · exact hkept (.inr (List.ne_nil_of_mem hage))
      · obtain ⟨s, hs, -⟩ := List.mem_map.mp hpending
        obtain ⟨hs, hmissing⟩ := List.mem_filter.mp hs
        exact absurd (hdone (hscanned s hs)) (by simpa using hmissing)

theorem NeverAsked.matureAgeCounts (h : NeverAsked package policy findings done now) :
    MatureAgeCounts package policy findings done now := by
  refine .inr (.inr (.inr (.inr ?_)))
  rcases h with hcontent | ⟨hyoung, -⟩
  · exact .inl hcontent
  · exact .inr hyoung

variable (package policy findings done now)

/-- Every law holds of a verdict exactly when its ages have a date where they are added and
the mature age counts as what it is. -/
theorem verdict_laws_iff (last : Option DateTime) :
    VerdictLaws package policy findings done now last ↔
      DatesCount package policy findings done now := by
  constructor
  · intro h
    obtain ⟨v, -, hv, -⟩ := h.findings_add findings (List.Subperm.refl findings)
    obtain ⟨hage, -, rfl⟩ := evaluateChecked_eq_some_iff.mp hv
    refine ⟨hage, ?_⟩
    by_cases hfits : MatureFits package policy
    · exact .inl ⟨hfits, (scanned_iff package policy findings done now last).mp (h.scanned _ hv)⟩
    · exact .inr (neverAsked_of_laws h hfits)
  · rintro ⟨hage, hmature⟩
    have hreturns : ∀ more done' t, findings.Subperm more → done ⊆ done' →
        now = t ∨ more = findings → evaluateChecked package policy t more done' last =
          some (evaluate package more done' policy t last) := by
      intro more done' t hmore hdone ht
      refine evaluateChecked_eq_some_iff.mpr ⟨hage, fun hasked => ?_, rfl⟩
      rcases hmature with ⟨hfits, -⟩ | hnever
      · exact hfits
      · exact absurd hasked (hnever.not_asked hmore hdone ht)
    have hsame := List.Subperm.refl findings
    have hbase := hreturns findings done now hsame (List.Subset.refl done) (.inl rfl)
    refine ⟨?_, ?_, ?_, ?_⟩
    · intro more hmore
      exact ⟨_, _, hbase, hreturns more done now hmore (List.Subset.refl done) (.inl rfl),
        rank_evaluate_le hmore (List.Subset.refl _) (Int.le_refl now) last last⟩
    · intro more hmore
      exact ⟨_, _, hreturns findings more now hsame hmore (.inl rfl), hbase,
        rank_evaluate_le hsame hmore (Int.le_refl now) last last⟩
    · intro t ht
      exact ⟨_, _, hreturns findings done t hsame (List.Subset.refl done) (.inr rfl), hbase,
        rank_evaluate_le hsame (List.Subset.refl _) ht last last⟩
    · intro v hv
      obtain ⟨-, -, rfl⟩ := evaluateChecked_eq_some_iff.mp hv
      apply (scanned_iff package policy findings done now last).mpr
      rcases hmature with ⟨-, hcounts⟩ | hnever
      · exact hcounts
      · exact hnever.matureAgeCounts

end Laws

/-- A profile that serves nothing unscanned for three hundred million years. -/
def patientPolicy : SecurityPolicy :=
  { SecurityPolicy.defaultsFor "npm" with minAge := 0, matureAge := maxSpan + 1 }

/-- A policy that asks for an age of three hundred thousand years. -/
def ageingPolicy : SecurityPolicy :=
  { SecurityPolicy.defaultsFor "npm" with minAge := maxSpan }

/-- A version just published is served although its scanner has not answered; and no verdict
is given of a version whose age takes it past the last date. -/
theorem a_young_version_is_served_unscanned :
    (¬ ∀ package policy findings done now last,
      VerdictLaws package policy findings done now last) ∧
      evaluateChecked leftpad patientPolicy 1 [] [] none =
        some (evaluate leftpad [] [] patientPolicy 1 none) ∧
      (evaluate leftpad [] [] patientPolicy 1 none).state = .warned ∧
      evaluateChecked leftpad ageingPolicy 1 [] [] none = none := by
  have hreturns : evaluateChecked leftpad patientPolicy 1 [] [] none =
      some (evaluate leftpad [] [] patientPolicy 1 none) := by
    refine evaluateChecked_eq_some_iff.mpr ⟨?_, fun _ => .inr ?_, rfl⟩
    · intro published hdated
      obtain rfl : (0 : DateTime) = published := Option.some.inj hdated
      decide
    · intro published hdated
      obtain rfl : (0 : DateTime) = published := Option.some.inj hdated
      decide
  refine ⟨?_, hreturns, by decide, ?_⟩
  · intro h
    rcases (h leftpad patientPolicy [] [] 1 none).scanned _ hreturns (by decide) with
      hscanned | ⟨-, published, hdated, hmature⟩
    · exact absurd (hscanned "osv" (by decide)) (by decide)
    · obtain rfl : (0 : DateTime) = published := Option.some.inj hdated
      exact absurd hmature (by decide)
  · cases hv : evaluateChecked leftpad ageingPolicy 1 [] [] none with
    | none => rfl
    | some v =>
      exact absurd ((evaluateChecked_eq_some_iff.mp hv).1 0 rfl) (by decide)

end BatleHub.VerdictOrder
