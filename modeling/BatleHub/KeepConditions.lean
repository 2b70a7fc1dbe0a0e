import BatleHub.Instants
import BatleHub.PinnedVersions
import Mathlib.Algebra.Order.Ring.Nat

/-!
The keep conditions of retention with the date arithmetic as it is: `within` subtracts the
window from the clock, and chrono panics where no instant is left. Where every window stays
in range a stronger policy condemns no version more, and the newest versions are kept.
-/
namespace BatleHub.Retention

open LocalPackages (DateTime)
open InMemoryRegistry (fromStd maxDuration)
open Instants (minUtc maxUtc Representable checkedSubSigned)

section Arithmetic

/-- `within`; nothing where the subtraction panics. -/
def withinChecked (then_ : DateTime) (window : ℕ) (now : DateTime) : Option Bool :=
  match fromStd window with
  | none => some true
  | some window => (checkedSubSigned now window).map fun start => decide (start ≤ then_)

/-- A condition holds if it is configured, there is an instant to ask about and this lies
within the window. -/
def windowHolds (window : Option ℕ) (instant : Option DateTime) (now : DateTime) : Option Bool :=
  match window, instant with
  | some window, some t => withinChecked t window now
  | _, _ => some false

/-- `decide`, up to a panic. A condition is evaluated only where those before it decline. -/
def RetentionService.decideChecked (candidate : Candidate) (policy : RetentionPolicy)
    (now : DateTime) : Option (Option KeepReason) :=
  if !policy.reclaimsAnything then some (some .noPolicy)
  else if candidate.pkg.retentionKeep then some (some .pinned)
  else if policy.keepVersions.any fun n => Decidable.decide (candidate.rankFromNewest < n) then
    some (some .keepVersions)
  else
    (windowHolds policy.keepFor (some candidate.pkg.publishedAt) now).bind fun published =>
      if published then some (some .keepFor)
      else
        (windowHolds policy.keepIfPulled candidate.lastDownload now).map fun pulled =>
          if pulled then some .keepIfPulled
          else if policy.keepYanked && candidate.pkg.yanked then some .keepYanked
          else if policy.keepIfPulled.isSome && candidate.lastDownload.isNone &&
              Decidable.decide (candidate.pkg.publishedAt < policy.downloadSignalFloor) then
            some .beforeSignalFloor
          else none

/-- `judge`, up to a panic. -/
def RetentionService.judgeChecked (versions : List PublishedVersion)
    (downloads : List (String × DateTime)) (policy : RetentionPolicy) (now : DateTime)
    (report : RetentionReport) : Option (List PublishedVersion × RetentionReport) :=
  (candidates versions downloads).foldlM
    (fun acc c =>
      (RetentionService.decideChecked c policy now).map fun decision =>
        (if decision.isNone then acc.1 ++ [c.pkg] else acc.1, acc.2.record c.pkg decision))
    ([], report)

end Arithmetic

section Refinement
variable {now : DateTime}

theorem withinChecked_eq {t : DateTime} {window : ℕ} {b : Bool}
    (h : withinChecked t window now = some b) : within t window now = b := by
  unfold withinChecked at h
  unfold within
  cases hstd : fromStd window with
  | none =>
    rw [hstd] at h
    exact Option.some.inj h
  | some w =>
    rw [hstd] at h
    obtain ⟨start, hstart, hb⟩ := Option.map_eq_some_iff.mp h
    unfold checkedSubSigned at hstart
    split at hstart
    · obtain rfl := Option.some.inj hstart
      exact hb
    · cases hstart

theorem windowHolds_eq {window : Option ℕ} {instant : Option DateTime} {b : Bool}
    (h : windowHolds window instant now = some b) :
    (window.any fun w => instant.any fun t => within t w now) = b := by
  cases window with
  | none => exact Option.some.inj h
  | some w => cases instant with
    | none => exact Option.some.inj h
    | some t => exact withinChecked_eq h

/-- Where nothing panics the decision is the one without bounds. -/
theorem decide_of_decideChecked {c : Candidate} {policy : RetentionPolicy} {d : Option KeepReason}
    (h : RetentionService.decideChecked c policy now = some d) :
    RetentionService.decide c policy now = d := by
  unfold RetentionService.decideChecked at h
  unfold RetentionService.decide
  by_cases hinert : (!policy.reclaimsAnything) = true
  · rw [if_pos hinert] at h ⊢
    exact Option.some.inj h
  by_cases hpinned : c.pkg.retentionKeep = true
  · rw [if_neg hinert, if_pos hpinned] at h ⊢
    exact Option.some.inj h
  by_cases hversions :
    (policy.keepVersions.any fun n => decide (c.rankFromNewest < n)) = true
  · rw [if_neg hinert, if_neg hpinned, if_pos hversions] at h ⊢
    exact Option.some.inj h
  rw [if_neg hinert, if_neg hpinned, if_neg hversions] at h ⊢
  obtain ⟨published, hpublished, hrest⟩ := Option.bind_eq_some_iff.mp h
  have hfor : (policy.keepFor.any fun w => within c.pkg.publishedAt w now) = published :=
    windowHolds_eq hpublished
  rw [hfor]
  by_cases hkept : published = true
  · rw [if_pos hkept] at hrest ⊢
    exact Option.some.inj hrest
  · rw [if_neg hkept] at hrest ⊢
    obtain ⟨pulled, hpulled, hd⟩ := Option.map_eq_some_iff.mp hrest
    rw [windowHolds_eq hpulled]
    exact hd

/-- The judging succeeds just when no decision panics, and condemns what nothing keeps. -/
theorem judgeFold_spec {policy : RetentionPolicy} (cs : List Candidate)
    (acc : List PublishedVersion × RetentionReport) :
    ((cs.foldlM (fun acc c =>
        (RetentionService.decideChecked c policy now).map fun decision =>
          (if decision.isNone then acc.1 ++ [c.pkg] else acc.1, acc.2.record c.pkg decision))
        acc).isSome = true ↔
      ∀ c ∈ cs, (RetentionService.decideChecked c policy now).isSome = true) ∧
    ∀ result, cs.foldlM (fun acc c =>
        (RetentionService.decideChecked c policy now).map fun decision =>
          (if decision.isNone then acc.1 ++ [c.pkg] else acc.1, acc.2.record c.pkg decision))
        acc = some result →
      result.1 = acc.1 ++ (cs.filter fun c =>
        (RetentionService.decide c policy now).isNone).map Candidate.pkg := by
  induction cs generalizing acc with
  | nil =>
    refine ⟨by simp, ?_⟩
    intro result h
    obtain rfl := Option.some.inj h
    simp
  | cons c cs ih =>
    rw [List.foldlM_cons, List.forall_mem_cons]
    cases hd : RetentionService.decideChecked c policy now with
    | none =>
      refine ⟨by simp, ?_⟩
      intro result h
      cases h
    | some d =>
      rw [Option.map_some, Option.isSome_some, eq_self_iff_true, true_and]
      refine ⟨(ih _).1, ?_⟩
      intro result h
      rw [(ih _).2 result h, List.filter_cons, decide_of_decideChecked hd]
      cases d with
      | none => simp
      | some reason => simp

variable {versions : List PublishedVersion} {downloads : List (String × DateTime)}
  {policy : RetentionPolicy} {report : RetentionReport}

theorem judgeChecked_isSome :
    (RetentionService.judgeChecked versions downloads policy now report).isSome = true ↔
      ∀ c ∈ candidates versions downloads,
        (RetentionService.decideChecked c policy now).isSome = true :=
  (judgeFold_spec _ _).1

theorem judgeChecked_doomed {result : List PublishedVersion × RetentionReport}
    (h : RetentionService.judgeChecked versions downloads policy now report = some result) :
    result.1 = ((candidates versions downloads).filter fun c =>
      (RetentionService.decide c policy now).isNone).map Candidate.pkg :=
  (judgeFold_spec _ _).2 result h

end Refinement

section Monotone
variable {now : DateTime}

/-- Every condition of the first is one of the second, which holds longer. -/
structure AtLeast (policy policy' : RetentionPolicy) : Prop where
  keepVersions : ∀ n ∈ policy.keepVersions, ∃ m ∈ policy'.keepVersions, n ≤ m
  keepFor : ∀ w ∈ policy.keepFor, ∃ w' ∈ policy'.keepFor, w ≤ w'
  keepIfPulled : ∀ w ∈ policy.keepIfPulled, ∃ w' ∈ policy'.keepIfPulled, w ≤ w'
  floor : policy.downloadSignalFloor ≤ policy'.downloadSignalFloor
  keepYanked : policy.keepYanked = true → policy'.keepYanked = true

/-- The same version, pinned or not where it was not before. -/
structure PinnedFrom (v v' : PublishedVersion) : Prop where
  same : v' = { v with retentionKeep := v'.retentionKeep }
  kept : v.retentionKeep = true → v'.retentionKeep = true

theorem PinnedFrom.version_eq {v v' : PublishedVersion} (h : PinnedFrom v v') :
    v'.version = v.version := by
  rw [h.same]

theorem within_mono {t : DateTime} {w w' : ℕ} (hle : w ≤ w') (h : within t w now = true) :
    within t w' now = true := by
  unfold within at h ⊢
  cases hstd : fromStd w' with
  | none => rfl
  | some d' =>
    have hsmall : w' ≤ maxDuration := by
      by_contra hbig
      rw [fromStd, if_neg hbig] at hstd
      cases hstd
    rw [fromStd, if_pos hsmall] at hstd
    obtain rfl := Option.some.inj hstd
    rw [fromStd, if_pos (hle.trans hsmall)] at h
    have hstart : now - (w : ℤ) ≤ t := of_decide_eq_true h
    refine decide_eq_true ?_
    exact le_trans (Int.sub_le_sub_left (Int.ofNat_le.mpr hle) now) hstart

/-- A condition that the second policy has too, and longer. -/
theorem any_of_atLeast {o o' : Option ℕ} {p p' : ℕ → Bool} (hle : ∀ w ∈ o, ∃ w' ∈ o', w ≤ w')
    (hp : ∀ w w', w ≤ w' → p w = true → p' w' = true) (h : o.any p = true) :
    o'.any p' = true := by
  obtain ⟨w, hw, hholds⟩ := (Option.any_eq_true p o).mp h
  obtain ⟨w', hw', hlonger⟩ := hle w hw
  exact (Option.any_eq_true p' o').mpr ⟨w', hw', hp w w' hlonger hholds⟩

/-- What every condition of the stronger policy declines, every condition of the weaker one
declines. -/
theorem decide_mono {policy policy' : RetentionPolicy} {c c' : Candidate}
    (hpolicy : AtLeast policy policy') (hreclaims : policy.reclaimsAnything = true)
    (hpkg : PinnedFrom c.pkg c'.pkg) (hrank : c'.rankFromNewest = c.rankFromNewest)
    (hdownload : c'.lastDownload = c.lastDownload)
    (h : RetentionService.decide c' policy' now = none) :
    RetentionService.decide c policy now = none := by
  unfold RetentionService.decide at h
  split_ifs at h with hinert hpinned hversions hfor hpulled hyanked hfloor
  have hpublished : c'.pkg.publishedAt = c.pkg.publishedAt := by rw [hpkg.same]
  have hyank : c'.pkg.yanked = c.pkg.yanked := by rw [hpkg.same]
  rw [hrank] at hversions
  rw [hpublished] at hfor hfloor
  rw [hdownload] at hpulled hfloor
  rw [hyank] at hyanked
  unfold RetentionService.decide
  rw [if_neg (by rw [hreclaims]; decide), if_neg (fun hold => hpinned (hpkg.kept hold)),
    if_neg, if_neg, if_neg, if_neg, if_neg]
  · intro hold
    rw [Bool.and_eq_true, Bool.and_eq_true] at hold
    obtain ⟨⟨hsome, hnone⟩, hbefore⟩ := hold
    obtain ⟨w, hw⟩ := Option.isSome_iff_exists.mp hsome
    obtain ⟨w', hw', -⟩ := hpolicy.keepIfPulled w hw
    refine hfloor ?_
    rw [Bool.and_eq_true, Bool.and_eq_true]
    refine ⟨⟨Option.isSome_iff_exists.mpr ⟨w', hw'⟩, hnone⟩, decide_eq_true ?_⟩
    exact lt_of_lt_of_le (of_decide_eq_true hbefore) hpolicy.floor
  · intro hold
    rw [Bool.and_eq_true] at hold
    exact hyanked (Bool.and_eq_true_iff.mpr ⟨hpolicy.keepYanked hold.1, hold.2⟩)
  · intro hold
    refine hpulled (any_of_atLeast hpolicy.keepIfPulled ?_ hold)
    intro w w' hle hlast
    obtain ⟨last, hsome, hwithin⟩ := (Option.any_eq_true _ _).mp hlast
    exact (Option.any_eq_true _ _).mpr ⟨last, hsome, within_mono hle hwithin⟩
  · intro hold
    exact hfor (any_of_atLeast hpolicy.keepFor (fun w w' hle => within_mono hle) hold)
  · intro hold
    refine hversions (any_of_atLeast hpolicy.keepVersions ?_ hold)
    intro n m hle hrank
    exact decide_eq_true (lt_of_lt_of_le (of_decide_eq_true hrank) hle)

variable {versions versions' : List PublishedVersion} {downloads : List (String × DateTime)}

/-- The candidates of two lists that differ in pins, side by side. -/
theorem candidates_pinned (h : List.Forall₂ PinnedFrom versions versions') :
    List.Forall₂ (fun c c' => PinnedFrom c.pkg c'.pkg ∧ c'.rankFromNewest = c.rankFromNewest ∧
      c'.lastDownload = c.lastDownload) (candidates versions downloads)
      (candidates versions' downloads) := by
  have hzip : ∀ i, List.Forall₂ (fun e e' => PinnedFrom e.1 e'.1 ∧ e'.2 = e.2)
      (versions.zipIdx i) (versions'.zipIdx i) := by
    induction h with
    | nil => exact fun i => List.Forall₂.nil
    | cons hv _ ih => exact fun i => List.Forall₂.cons ⟨hv, rfl⟩ (ih (i + 1))
  unfold candidates
  rw [List.forall₂_map_left_iff, List.forall₂_map_right_iff, ← h.length_eq]
  refine List.Forall₂.imp ?_ (hzip 0)
  rintro ⟨v, i⟩ ⟨v', i'⟩ ⟨hv, rfl⟩
  exact ⟨hv, rfl, by rw [hv.version_eq]⟩

/-- A version that is not pinned in the end was not pinned before. -/
theorem PinnedFrom.eq_of_unpinned {v v' : PublishedVersion} (h : PinnedFrom v v')
    (hv' : v'.retentionKeep = false) : v' = v := by
  have hv : v.retentionKeep = false := by
    by_contra hpinned
    rw [h.kept (Bool.eq_true_of_not_eq_false hpinned)] at hv'
    cases hv'
  rw [h.same, hv', ← hv]

theorem doomed_sublist {policy policy' : RetentionPolicy} (hpolicy : AtLeast policy policy')
    (hreclaims : policy.reclaimsAnything = true) {cs cs' : List Candidate}
    (h : List.Forall₂ (fun c c' => PinnedFrom c.pkg c'.pkg ∧
      c'.rankFromNewest = c.rankFromNewest ∧ c'.lastDownload = c.lastDownload) cs cs') :
    ((cs'.filter fun c => (RetentionService.decide c policy' now).isNone).map
      Candidate.pkg).Sublist
      ((cs.filter fun c => (RetentionService.decide c policy now).isNone).map Candidate.pkg) := by
  induction h with
  | nil => exact List.Sublist.refl _
  | @cons c c' cs cs' hc _ ih =>
    obtain ⟨hpkg, hrank, hdownload⟩ := hc
    rw [List.filter_cons, List.filter_cons]
    by_cases hdoomed : (RetentionService.decide c' policy' now).isNone = true
    · have hnone := Option.isNone_iff_eq_none.mp hdoomed
      have hweak := decide_mono hpolicy hreclaims hpkg hrank hdownload hnone
      have hunpinned : c'.pkg.retentionKeep = false :=
        retentionKeep_of_condemnable (condemnable_of_decide_eq_none hnone)
      rw [if_pos hdoomed, if_pos (Option.isNone_iff_eq_none.mpr hweak), List.map_cons,
        List.map_cons, hpkg.eq_of_unpinned hunpinned]
      exact ih.cons_cons c.pkg
    · rw [if_neg hdoomed]
      split
      · exact ih.cons c.pkg
      · exact ih

/-- The last `n` of the list are kept: nothing but the rest can be condemned. -/
theorem doomed_sublist_older {policy : RetentionPolicy} {n : ℕ}
    (hn : policy.keepVersions = some n) (older newest : List PublishedVersion)
    (hlength : newest.length ≤ n) :
    (((candidates (older ++ newest) downloads).filter fun c =>
      (RetentionService.decide c policy now).isNone).map Candidate.pkg).Sublist older := by
  have hnewest : ∀ e ∈ newest.zipIdx older.length, (RetentionService.decide
      ⟨e.1, (older ++ newest).length - 1 - e.2,
        (downloads.find? fun d => d.1 == e.1.version).map Prod.snd⟩ policy now).isNone = false := by
    rintro ⟨v, i⟩ he
    obtain ⟨hi, hi', -⟩ := List.mem_zipIdx he
    rw [List.length_append]
    have hrank : older.length + newest.length - 1 - i < n := by omega
    rw [← Bool.not_eq_true, Option.isNone_iff_eq_none]
    intro hnone
    unfold RetentionService.decide at hnone
    split_ifs at hnone with hinert hpinned hversions
    rw [hn] at hversions
    exact hversions (decide_eq_true hrank)
  unfold candidates
  rw [List.zipIdx_append, List.map_append, List.filter_append, Nat.zero_add]
  have hempty : ((newest.zipIdx older.length).map fun e => (⟨e.1,
      (older ++ newest).length - 1 - e.2,
      (downloads.find? fun d => d.1 == e.1.version).map Prod.snd⟩ : Candidate)).filter
        (fun c => (RetentionService.decide c policy now).isNone) = [] := by
    rw [List.filter_eq_nil_iff]
    intro c hc
    obtain ⟨e, he, rfl⟩ := List.mem_map.mp hc
    rw [hnewest e he]
    decide
  rw [hempty, List.append_nil]
  refine (List.filter_sublist.map Candidate.pkg).trans ?_
  rw [List.map_map, show Candidate.pkg ∘ _ = Prod.fst from rfl, List.zipIdx_map_fst]

end Monotone

section Totality
variable {now : DateTime}

/-- The clock less the window is an instant, or the window is too long to convert. -/
def Reaches (now : DateTime) (window : ℕ) : Prop := ∀ w, fromStd window = some w → minUtc ≤ now - w

/-- The window holds every instant there is. -/
def HoldsAll (now : DateTime) (window : ℕ) : Prop :=
  ∀ w, fromStd window = some w → now - w ≤ minUtc

/-- Every window reaches back to an instant. The download window is not asked where the
publish window holds every version. -/
structure WindowsReach (policy : RetentionPolicy) (now : DateTime) : Prop where
  keepFor : ∀ w ∈ policy.keepFor, Reaches now w
  keepIfPulled : ∀ w ∈ policy.keepIfPulled, Reaches now w ∨ ∃ w' ∈ policy.keepFor, HoldsAll now w'

theorem withinChecked_isSome (hnow : Representable now) (t : DateTime) (window : ℕ) :
    (withinChecked t window now).isSome = true ↔ Reaches now window := by
  unfold withinChecked Reaches
  cases hstd : fromStd window with
  | none => simp
  | some w =>
    have hpos : 0 ≤ w := by
      unfold fromStd at hstd
      split at hstd
      · obtain rfl := Option.some.inj hstd
        exact Int.natCast_nonneg window
      · cases hstd
    have hle : now - w ≤ maxUtc := (Int.sub_le_self now hpos).trans hnow.2
    simp [checkedSubSigned, Representable, hle]

theorem windowHolds_isSome (hnow : Representable now) {window : Option ℕ}
    (h : ∀ w ∈ window, Reaches now w) (instant : Option DateTime) :
    (windowHolds window instant now).isSome = true := by
  cases window with
  | none => rfl
  | some w => cases instant with
    | none => rfl
    | some t => exact (withinChecked_isSome hnow t w).mpr (h w rfl)

/-- A window that holds all instants holds this one. -/
theorem within_of_holdsAll {t : DateTime} {w : ℕ} (ht : minUtc ≤ t) (h : HoldsAll now w) :
    within t w now = true := by
  unfold within
  cases hstd : fromStd w with
  | none => rfl
  | some d => exact decide_eq_true ((h d hstd).trans ht)

theorem decideChecked_isSome {policy : RetentionPolicy} (hnow : Representable now)
    (h : WindowsReach policy now) (c : Candidate) (hc : minUtc ≤ c.pkg.publishedAt) :
    (RetentionService.decideChecked c policy now).isSome = true := by
  unfold RetentionService.decideChecked
  split
  · rfl
  split
  · rfl
  split
  · rfl
  obtain ⟨published, hpublished⟩ := Option.isSome_iff_exists.mp
    (windowHolds_isSome hnow h.keepFor (some c.pkg.publishedAt))
  rw [hpublished, Option.bind_some]
  by_cases hkept : published = true
  · rw [if_pos hkept]
    rfl
  · rw [if_neg hkept, Option.isSome_map]
    refine windowHolds_isSome hnow ?_ _
    intro w hw
    refine (h.keepIfPulled w hw).resolve_right ?_
    rintro ⟨w', hw', hall⟩
    refine hkept ((windowHolds_eq hpublished).symm.trans ?_)
    exact (Option.any_eq_true _ _).mpr ⟨w', hw', within_of_holdsAll hc hall⟩

/-- The oldest version there can be, which nothing pins. -/
def firstVersion : PublishedVersion := ⟨"left-pad", "1.0.0", minUtc, false, false⟩

/-- The oldest of more versions than are kept by number. -/
def oldestOf (policy : RetentionPolicy) : List PublishedVersion :=
  firstVersion :: List.replicate (policy.keepVersions.getD 0) firstVersion

def firstPull : List (String × DateTime) := [("1.0.0", minUtc)]

theorem oldestOf_candidate (policy : RetentionPolicy) :
    ⟨firstVersion, policy.keepVersions.getD 0, some minUtc⟩ ∈
      candidates (oldestOf policy) firstPull := by
  refine List.mem_map.mpr ⟨(firstVersion, 0), List.mem_cons_self, ?_⟩
  rw [oldestOf, List.length_cons, List.length_replicate]
  rfl

/-- Where the oldest version is judged without a panic, every window reaches. -/
theorem windowsReach_of_decideChecked {policy : RetentionPolicy} (hnow : Representable now)
    (hreclaims : policy.reclaimsAnything = true)
    (h : (RetentionService.decideChecked ⟨firstVersion, policy.keepVersions.getD 0, some minUtc⟩
      policy now).isSome = true) : WindowsReach policy now := by
  have hinert : ¬ (!policy.reclaimsAnything) = true := by
    rw [hreclaims]
    decide
  have hrank : ¬ (policy.keepVersions.any fun n =>
      decide (policy.keepVersions.getD 0 < n)) = true := by
    cases policy.keepVersions with
    | none => decide
    | some n => simp
  unfold RetentionService.decideChecked at h
  rw [if_neg hinert, if_neg (show ¬ firstVersion.retentionKeep = true by decide), if_neg hrank] at h
  obtain ⟨d, hd⟩ := Option.isSome_iff_exists.mp h
  obtain ⟨published, hpublished, hrest⟩ := Option.bind_eq_some_iff.mp hd
  refine ⟨?_, ?_⟩
  · intro w hw
    rw [Option.mem_def] at hw
    rw [hw] at hpublished
    exact (withinChecked_isSome hnow minUtc w).mp (Option.isSome_of_eq_some hpublished)
  · intro w hw
    rw [Option.mem_def] at hw
    by_cases hkept : published = true
    · right
      rw [hkept] at hpublished
      obtain ⟨w', hw', hall⟩ := (Option.any_eq_true _ _).mp (windowHolds_eq hpublished)
      refine ⟨w', hw', ?_⟩
      intro d' hd'
      have hwithin : within minUtc w' now = true := hall
      unfold within at hwithin
      rw [hd'] at hwithin
      exact of_decide_eq_true hwithin
    · left
      rw [if_neg hkept] at hrest
      obtain ⟨pulled, hpulled, -⟩ := Option.map_eq_some_iff.mp hrest
      rw [hw] at hpulled
      exact (withinChecked_isSome hnow minUtc w).mp (Option.isSome_of_eq_some hpulled)

end Totality

section Results

/-- What is asked of the conditions of a policy at a time: a verdict on every list of versions,
no verdict lost to a stronger policy or a pin, and the newest versions kept. -/
structure OnlyKeeps (policy : RetentionPolicy) (now : DateTime) : Prop where
  total : ∀ versions downloads report, (∀ v ∈ versions, Representable v.publishedAt) →
    (∀ d ∈ downloads, Representable d.2) →
    (RetentionService.judgeChecked versions downloads policy now report).isSome = true
  monotone : ∀ policy' versions versions' downloads report report' result result',
    AtLeast policy policy' → List.Forall₂ PinnedFrom versions versions' →
    RetentionService.judgeChecked versions downloads policy now report = some result →
    RetentionService.judgeChecked versions' downloads policy' now report' = some result' →
    result'.1.Sublist result.1
  newest : ∀ n older newest downloads report result, policy.keepVersions = some n →
    newest.length ≤ n → (older ++ newest).Pairwise (fun v w => v.publishedAt ≤ w.publishedAt) →
    RetentionService.judgeChecked (older ++ newest) downloads policy now report = some result →
    result.1.Sublist older

/-- The conditions only keep just when every window stays in the range of chrono's instants. -/
theorem conditions_only_keep_iff (policy : RetentionPolicy) (now : DateTime)
    (hnow : Representable now) (hreclaims : policy.reclaimsAnything = true) :
    OnlyKeeps policy now ↔ WindowsReach policy now := by
  constructor
  · intro h
    have htotal := h.total (oldestOf policy) firstPull (RetentionReport.new false) ?_ ?_
    · refine windowsReach_of_decideChecked hnow hreclaims ?_
      exact judgeChecked_isSome.mp htotal _ (oldestOf_candidate policy)
    · intro v hv
      have hfirst : v = firstVersion := by
        rcases List.mem_cons.mp hv with heq | hmem
        · exact heq
        · exact List.eq_of_mem_replicate hmem
      rw [hfirst]
      decide
    · intro d hd
      rw [List.mem_singleton.mp hd]
      decide
  · intro h
    refine ⟨?_, ?_, ?_⟩
    · intro versions downloads report hversions _
      refine judgeChecked_isSome.mpr ?_
      intro c hc
      exact decideChecked_isSome hnow h c (hversions _ (pkg_mem_of_mem_candidates hc)).1
    · intro policy' versions versions' downloads report report' result result' hpolicy hpins hr hr'
      rw [judgeChecked_doomed hr, judgeChecked_doomed hr']
      exact doomed_sublist hpolicy hreclaims (candidates_pinned hpins)
    · intro n older newest downloads report result hn hlength _ hr
      rw [judgeChecked_doomed hr]
      exact doomed_sublist_older hn older newest hlength

/-- 2027, and windows of days as the configuration writes them. -/
def sampleNow : DateTime := 1800000000 * 10 ^ 9

def days (d : ℕ) : ℕ := d * 24 * 60 * 60 * 10 ^ 9

def keepForDays (d : ℕ) : RetentionPolicy := ⟨some 1, some (days d), none, true, 0, 0, true⟩

theorem conditions_only_keep_iff_ninety_days :
    OnlyKeeps (keepForDays 90) sampleNow := by
  refine (conditions_only_keep_iff (keepForDays 90) sampleNow (by decide) rfl).mpr ⟨?_, ?_⟩
  · intro w hw d hd
    obtain rfl := Option.some.inj hw
    obtain rfl := Option.some.inj hd
    decide
  · intro w hw
    cases hw

/-- The longest window that can be configured has no start, and the judging of two versions
panics. -/
theorem longest_window_panics :
    RetentionService.judgeChecked [⟨"left-pad", "1.0.0", 0, false, false⟩,
      ⟨"left-pad", "1.1.0", 1, false, false⟩] [] (keepForDays (2 ^ 32 - 1)) sampleNow
      (RetentionReport.new true) = none ∧ ¬ OnlyKeeps (keepForDays (2 ^ 32 - 1)) sampleNow := by
  have hpanics : RetentionService.judgeChecked [⟨"left-pad", "1.0.0", 0, false, false⟩,
      ⟨"left-pad", "1.1.0", 1, false, false⟩] [] (keepForDays (2 ^ 32 - 1)) sampleNow
      (RetentionReport.new true) = none := by decide
  refine ⟨hpanics, fun h => ?_⟩
  have htotal := h.total [⟨"left-pad", "1.0.0", 0, false, false⟩,
    ⟨"left-pad", "1.1.0", 1, false, false⟩] [] (RetentionReport.new true) (by decide) (by decide)
  rw [hpanics] at htotal
  cases htotal

end Results

end BatleHub.Retention
