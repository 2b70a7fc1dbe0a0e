import BatleHub.RetentionRuns

/-!
A pinned version and a retention run. A run that reads the row after the pin keeps the
version; what it read before the pin it still deletes. So a pin is honoured as long as it
does not land on a version that the run has read unpinned, may condemn, and has not begun
to delete.
-/
namespace BatleHub.Retention

open Lib AssocMap

section Decisions
variable {policy : RetentionPolicy} {now : LocalPackages.DateTime} {c : Candidate}

/-- The version would be condemned with some record of its downloads. -/
def condemnable (policy : RetentionPolicy) (now : LocalPackages.DateTime) (c : Candidate) : Bool :=
  match RetentionService.decide { c with lastDownload := none } policy now with
  | none => true
  | some .beforeSignalFloor => true
  | some _ => false

/-- A download record can only add a reason to keep, the signal floor apart. -/
theorem condemnable_of_decide_eq_none (h : RetentionService.decide c policy now = none) :
    condemnable policy now c = true := by
  unfold RetentionService.decide at h
  split_ifs at h with hinert hpinned hversions hfor hpulled hyanked hfloor
  unfold condemnable RetentionService.decide
  rw [if_neg hinert, if_neg hpinned, if_neg hversions, if_neg hfor,
    if_neg (by cases policy.keepIfPulled <;> simp), if_neg hyanked]
  split_ifs <;> rfl

/-- A pinned version is never condemned. -/
theorem retentionKeep_of_condemnable (h : condemnable policy now c = true) :
    c.pkg.retentionKeep = false := by
  by_contra hpinned
  rw [Bool.not_eq_false] at hpinned
  unfold condemnable RetentionService.decide at h
  by_cases hinert : (!policy.reclaimsAnything) = true
  · rw [if_pos hinert] at h
    cases h
  · rw [if_neg hinert, if_pos hpinned] at h
    cases h

theorem mem_foldl_doomed (cs : List Candidate) (acc : List PublishedVersion × RetentionReport)
    (pkg : PublishedVersion)
    (h : pkg ∈ (cs.foldl (fun acc c =>
      let decision := RetentionService.decide c policy now
      (if decision.isNone then acc.1 ++ [c.pkg] else acc.1, acc.2.record c.pkg decision)) acc).1) :
    pkg ∈ acc.1 ∨ ∃ c ∈ cs, c.pkg = pkg ∧ RetentionService.decide c policy now = none := by
  induction cs generalizing acc with
  | nil => exact Or.inl h
  | cons c cs ih =>
    rw [List.foldl_cons] at h
    rcases ih _ h with hacc | ⟨c', hc', hpkg, hdecide⟩
    · dsimp only at hacc
      split_ifs at hacc with hnone
      · rcases List.mem_append.mp hacc with hold | hnew
        · exact Or.inl hold
        · rw [List.mem_singleton] at hnew
          exact Or.inr ⟨c, List.mem_cons_self, hnew.symm, Option.isNone_iff_eq_none.mp hnone⟩
      · exact Or.inl hacc
    · exact Or.inr ⟨c', List.mem_cons_of_mem c hc', hpkg, hdecide⟩

/-- What a judging condemns could be condemned before the downloads were read. -/
theorem condemnable_of_mem_judge {versions : List PublishedVersion}
    {downloads : List (String × LocalPackages.DateTime)} {report : RetentionReport}
    {pkg : PublishedVersion}
    (h : pkg ∈ (RetentionService.judge versions downloads policy now report).1) :
    ∃ c ∈ candidates versions [], c.pkg = pkg ∧ condemnable policy now c = true := by
  rcases mem_foldl_doomed _ _ pkg h with hnil | ⟨c, hc, rfl, hdecide⟩
  · exact absurd hnil List.not_mem_nil
  · have hcondemnable := condemnable_of_decide_eq_none hdecide
    obtain ⟨e, he, rfl⟩ := List.mem_map.mp hc
    exact ⟨_, List.mem_map.mpr ⟨e, he, rfl⟩, rfl, hcondemnable⟩

theorem pkg_mem_of_mem_candidates {versions : List PublishedVersion}
    {downloads : List (String × LocalPackages.DateTime)} (h : c ∈ candidates versions downloads) :
    c.pkg ∈ versions := by
  obtain ⟨⟨pkg, i⟩, he, rfl⟩ := List.mem_map.mp h
  exact List.fst_mem_of_mem_zipIdx he

end Decisions

section Rows

theorem mem_getVersions {registry name : String} {table : Table} {pkg : PublishedVersion}
    (h : pkg ∈ getVersions registry name table) :
    pkg.name = name ∧ ∃ row, table.lookup (registry, name, pkg.version) = some row ∧
      row.published = true ∧ row.retentionKeep = pkg.retentionKeep := by
  unfold getVersions at h
  rw [List.mem_insertionSort, List.mem_map] at h
  obtain ⟨⟨⟨r, n, v⟩, row⟩, he, rfl⟩ := h
  rw [List.mem_filter, Bool.and_eq_true, decide_eq_true_eq] at he
  obtain ⟨hmem, ⟨rfl, rfl⟩, hpublished⟩ := he
  exact ⟨rfl, row, (lookup_eq_some_iff _ _ _).mpr hmem, hpublished, rfl⟩

/-- A row after a pin or a release. -/
theorem lookup_setRetentionKeep (c c' : Coordinate) (keep : Bool) (table : Table) (row : LocalRow)
    (h : (setRetentionKeep c keep table).2.lookup c' = some row) :
    (c' = c ∧ (setRetentionKeep c keep table).1 = true ∧ row.retentionKeep = keep) ∨
      table.lookup c' = some row := by
  unfold setRetentionKeep at h ⊢
  cases hrow : table.lookup c with
  | none =>
    rw [hrow] at h
    exact Or.inr h
  | some old =>
    rw [hrow] at h
    dsimp only at h ⊢
    split_ifs at h ⊢
    · rw [lookup_insert_eq] at h
      split_ifs at h with hc
      · obtain rfl := Option.some.inj h
        exact Or.inl ⟨hc, rfl, rfl⟩
      · exact Or.inr h
    · exact Or.inr h

/-- A call that reports a change left the row as it was asked to. -/
theorem retentionKeep_of_changed (c : Coordinate) (keep : Bool) (table : Table) (row : LocalRow)
    (hchanged : (setRetentionKeep c keep table).1 = true)
    (h : (setRetentionKeep c keep table).2.lookup c = some row) : row.retentionKeep = keep := by
  unfold setRetentionKeep at h hchanged
  cases hrow : table.lookup c with
  | none =>
    rw [hrow] at hchanged
    cases hchanged
  | some old =>
    rw [hrow] at h hchanged
    dsimp only at h hchanged
    split_ifs at h hchanged
    rw [lookup_insert_eq, if_pos rfl] at h
    obtain rfl := Option.some.inj h
    rfl

/-- A deletion publishes nothing and pins nothing. -/
theorem lookup_tombstoneVersion (c c' : Coordinate) (table : Table) (row : LocalRow)
    (h : (tombstoneVersion c table).2.lookup c' = some row) (hpublished : row.published = true) :
    table.lookup c' = some row := by
  unfold tombstoneVersion at h
  cases hrow : table.lookup c with
  | none =>
    rw [hrow] at h
    exact h
  | some old =>
    rw [hrow] at h
    dsimp only at h
    split_ifs at h
    · rw [lookup_insert_eq] at h
      split_ifs at h with hc
      · obtain rfl := Option.some.inj h
        cases hpublished
      · exact h
    · exact h

end Rows

section Invariant

/-- The versions read in a phase that the run may yet begin to delete. -/
def Job.inReach (job : Job) : Phase → List PublishedVersion
  | .readingDownloads _ versions _ =>
    ((candidates versions []).filter (condemnable job.policy job.now)).map Candidate.pkg
  | .reclaiming doomed _ => doomed
  | .deleting _ rest _ => rest
  | .cleaning _ rest _ => rest
  | .sleeping rest _ => rest
  | .listing => []
  | .nextPackage _ => []
  | .finished _ => []

def Job.coordinate (job : Job) (pkg : PublishedVersion) : Coordinate :=
  (job.registry, pkg.name, pkg.version)

/-- The versions that a live run has read, may condemn, and has not begun to delete. -/
def Job.exposed (job : Job) : List Coordinate :=
  if job.policy.dryRun then [] else (job.inReach job.phase).map job.coordinate

def World.exposed (w : World) : List Coordinate := (w.job.map Job.exposed).getD []

theorem Job.mem_exposed_iff (job : Job) (c : Coordinate) :
    c ∈ job.exposed ↔
      job.policy.dryRun = false ∧ ∃ pkg ∈ job.inReach job.phase, job.coordinate pkg = c := by
  unfold Job.exposed
  cases job.policy.dryRun with
  | true => simp
  | false => simp

/-- A pin that takes effect does not land on an exposed version. -/
def PinsInTime (w : World) : Event → Prop
  | .setRetentionPin c true none =>
    (setRetentionKeep c true w.table).1 = true → c ∉ w.exposed
  | _ => True

instance (w : World) : (e : Event) → Decidable (PinsInTime w e)
  | .setRetentionPin c true none =>
    inferInstanceAs (Decidable ((setRetentionKeep c true w.table).1 = true → c ∉ w.exposed))
  | .setRetentionPin _ true (some _) => isTrue trivial
  | .setRetentionPin _ false _ => isTrue trivial
  | .start _ _ _ => isTrue trivial
  | .advance _ => isTrue trivial

/-- A pin in force stands in the row, no exposed version has one, and no delete began or
ended on a pinned version. -/
structure Honoured (w : World) : Prop where
  pins_kept : ∀ c ∈ w.pins, ∀ row, w.table.lookup c = some row → row.published = true →
    row.retentionKeep = true
  unexposed : ∀ c ∈ w.exposed, c ∉ w.pins
  begun : ∀ job, w.job = some job → ∀ pkg rest names, job.phase = .deleting pkg rest names →
    w.pinnedAtBegin = false
  deletions : ∀ d ∈ w.deletions, d.pinnedAtBegin = false

theorem Honoured.initial (table : Table) : Honoured (World.initial table) where
  pins_kept := by
    intro c hc
    cases hc
  unexposed := by
    intro c hc
    cases hc
  begun := by
    intro job hjob
    cases hjob
  deletions := by
    intro d hd
    cases hd

theorem pinStep_honoured (w : World) (c : Coordinate) (keep : Bool) (refusal : Option CoreError)
    (h : Honoured w) (hguard : PinsInTime w (.setRetentionPin c keep refusal)) :
    Honoured (pinStep w c keep refusal).2 := by
  cases refusal with
  | some e => exact h
  | none =>
    unfold pinStep
    refine ⟨?_, ?_, h.begun, h.deletions⟩
    · intro c' hc' row hrow hpublished
      dsimp only at hc' hrow
      rcases lookup_setRetentionKeep c c' keep w.table row hrow with ⟨rfl, hchanged, hkeep⟩ | hold
      · rw [hchanged] at hc'
        cases keep with
        | true => exact hkeep
        | false => simp at hc'
      · by_cases hset : ((setRetentionKeep c keep w.table).1 && keep) = true
        · rw [if_pos hset] at hc'
          obtain ⟨hchanged, hkeep⟩ := Bool.and_eq_true_iff.mp hset
          rcases List.mem_cons.mp hc' with rfl | hpin
          · rw [retentionKeep_of_changed c' keep w.table row hchanged hrow, hkeep]
          · exact h.pins_kept c' hpin row hold hpublished
        · rw [if_neg hset] at hc'
          have hpin : c' ∈ w.pins := by
            split_ifs at hc'
            · exact (List.mem_filter.mp hc').1
            · exact hc'
          exact h.pins_kept c' hpin row hold hpublished
    · intro c' hc'
      have hnot := h.unexposed c' hc'
      dsimp only
      split_ifs with hset
      · obtain ⟨hchanged, rfl⟩ := Bool.and_eq_true_iff.mp hset
        rw [List.mem_cons, not_or]
        refine ⟨?_, hnot⟩
        rintro rfl
        exact hguard hchanged hc'
      · intro hmem
        exact hnot (List.mem_filter.mp hmem).1
      · exact hnot

theorem exposed_of_job {w : World} {job : Job} (hjob : w.job = some job) :
    w.exposed = job.exposed := by
  unfold World.exposed
  rw [hjob]
  rfl

/-- What a reading exposes is unpinned in the table it was read from. -/
theorem notMem_pins_of_read {w : World} (h : Honoured w) (registry name : String)
    (policy : RetentionPolicy) (now : LocalPackages.DateTime) {c : Candidate}
    (hc : c ∈ candidates (getVersions registry name w.table) [])
    (hcondemnable : condemnable policy now c = true) :
    (registry, c.pkg.name, c.pkg.version) ∉ w.pins := by
  obtain ⟨hname, row, hrow, hpublished, hkeep⟩ := mem_getVersions (pkg_mem_of_mem_candidates hc)
  intro hpin
  rw [hname] at hpin
  have hpinned := h.pins_kept _ hpin row hrow hpublished
  rw [hkeep, retentionKeep_of_condemnable hcondemnable] at hpinned
  cases hpinned

/-- A step of the run that touches no row and begins no delete: what it reaches was
reached, or is unpinned. -/
theorem Honoured.of_job {w : World} (h : Honoured w) {job : Job} (hjob : w.job = some job)
    (job' : Job) (hregistry : job'.registry = job.registry)
    (hdry : job'.policy.dryRun = job.policy.dryRun)
    (hreach : job.policy.dryRun = false → ∀ pkg ∈ job'.inReach job'.phase,
      pkg ∈ job.inReach job.phase ∨ job.coordinate pkg ∉ w.pins)
    (hphase : ∀ pkg rest names, job'.phase ≠ .deleting pkg rest names) :
    Honoured { w with job := some job' } := by
  refine ⟨h.pins_kept, ?_, ?_, h.deletions⟩
  · intro c hc
    obtain ⟨hlive, pkg, hpkg, rfl⟩ := (Job.mem_exposed_iff job' c).mp hc
    rw [hdry] at hlive
    have hsame : job'.coordinate pkg = job.coordinate pkg := by
      unfold Job.coordinate
      rw [hregistry]
    rw [hsame]
    rcases hreach hlive pkg hpkg with hold | hnew
    · refine h.unexposed _ ?_
      rw [exposed_of_job hjob]
      exact (Job.mem_exposed_iff job _).mpr ⟨hlive, pkg, hold, rfl⟩
    · exact hnew
  · intro job'' hjob'' pkg rest names hdeleting
    obtain rfl := Option.some.inj hjob''
    exact absurd hdeleting (hphase pkg rest names)

/-- The delete of a version begins: nothing has pinned it. -/
theorem Honoured.begin_delete {w : World} (h : Honoured w) {job : Job} (hjob : w.job = some job)
    (hlive : job.policy.dryRun = false) {pkg : PublishedVersion} {rest : List PublishedVersion}
    {names : List String} (hphase : job.phase = .reclaiming (pkg :: rest) names) :
    Honoured { w with
      job := some { job with phase := .deleting pkg rest names }
      pinnedAtBegin := decide (job.coordinate pkg ∈ w.pins) } := by
  have hunpinned : ∀ pkg' ∈ pkg :: rest, job.coordinate pkg' ∉ w.pins := by
    intro pkg' hpkg'
    apply h.unexposed
    rw [exposed_of_job hjob]
    refine (Job.mem_exposed_iff job _).mpr ⟨hlive, pkg', ?_, rfl⟩
    rw [hphase]
    exact hpkg'
  refine ⟨h.pins_kept, ?_, ?_, h.deletions⟩
  · intro c hc
    obtain ⟨-, pkg', hpkg', rfl⟩ := (Job.mem_exposed_iff _ c).mp hc
    exact hunpinned pkg' (List.mem_cons_of_mem pkg hpkg')
  · intro job' hjob' pkg' rest' names' hdeleting
    exact decide_eq_false (hunpinned pkg List.mem_cons_self)

/-- The row goes, and what was recorded when the delete began goes with it. -/
theorem Honoured.tombstone {w : World} (h : Honoured w) {job : Job} (hjob : w.job = some job)
    {pkg : PublishedVersion} {rest : List PublishedVersion} {names : List String}
    (hphase : job.phase = .deleting pkg rest names) :
    Honoured { w with
      table := (tombstoneVersion (job.coordinate pkg) w.table).2
      job := some { job with phase := .cleaning pkg rest names }
      deletions :=
        if (tombstoneVersion (job.coordinate pkg) w.table).1 then
          w.deletions ++ [⟨job.coordinate pkg, w.pinnedAtBegin⟩]
        else w.deletions } := by
  have hbegun := h.begun job hjob pkg rest names hphase
  refine ⟨?_, ?_, ?_, ?_⟩
  · intro c hc row hrow hpublished
    exact h.pins_kept c hc row (lookup_tombstoneVersion _ c w.table row hrow hpublished) hpublished
  · intro c hc
    obtain ⟨hlive, pkg', hpkg', rfl⟩ := (Job.mem_exposed_iff _ c).mp hc
    apply h.unexposed
    rw [exposed_of_job hjob]
    refine (Job.mem_exposed_iff job _).mpr ⟨hlive, pkg', ?_, rfl⟩
    rw [hphase]
    exact hpkg'
  · intro job' hjob' pkg' rest' names' hdeleting
    obtain rfl := Option.some.inj hjob'
    cases hdeleting
  · intro d hd
    dsimp only at hd
    split_ifs at hd
    · rcases List.mem_append.mp hd with hold | hnew
      · exact h.deletions d hold
      · rw [List.mem_singleton.mp hnew]
        exact hbegun
    · exact h.deletions d hd

theorem advanceStep_honoured (w : World) (job : Job) (a : Answer) (hjob : w.job = some job)
    (h : Honoured w) : Honoured (advanceStep w job a) := by
  unfold advanceStep
  have hnothing : ∀ job' : Job, job'.registry = job.registry →
      job'.policy.dryRun = job.policy.dryRun → job'.inReach job'.phase = [] →
      (∀ pkg rest names, job'.phase ≠ .deleting pkg rest names) →
      Honoured { w with job := some job' } := by
    intro job' hregistry hdry hnone hphase
    refine h.of_job hjob job' hregistry hdry ?_ hphase
    intro _ pkg hpkg
    rw [hnone] at hpkg
    cases hpkg
  cases hphase : job.phase with
  | listing =>
    dsimp only
    cases a.failure with
    | some e => exact hnothing _ rfl rfl rfl nofun
    | none => exact hnothing _ rfl rfl rfl nofun
  | nextPackage names =>
    cases names with
    | nil => exact hnothing _ rfl rfl rfl nofun
    | cons name names =>
      dsimp only
      cases a.failure with
      | some e => exact hnothing _ rfl rfl rfl nofun
      | none =>
        dsimp only
        split_ifs
        · exact hnothing _ rfl rfl rfl nofun
        · refine h.of_job hjob _ rfl rfl ?_ nofun
          intro _ pkg hpkg
          obtain ⟨c, hc, rfl⟩ := List.mem_map.mp hpkg
          obtain ⟨hcandidate, hcondemnable⟩ := List.mem_filter.mp hc
          exact Or.inr
            (notMem_pins_of_read h job.registry name job.policy job.now hcandidate hcondemnable)
  | readingDownloads name versions names =>
    dsimp only
    cases (if job.packages then a.failure else none) with
    | some e => exact hnothing _ rfl rfl rfl nofun
    | none =>
      refine h.of_job hjob _ rfl rfl ?_ nofun
      intro _ pkg hpkg
      obtain ⟨c, hc, hcpkg, hcondemnable⟩ := condemnable_of_mem_judge hpkg
      rw [hphase]
      exact Or.inl (List.mem_map.mpr ⟨c, List.mem_filter.mpr ⟨hc, hcondemnable⟩, hcpkg⟩)
  | reclaiming doomed names =>
    cases doomed with
    | nil => exact hnothing _ rfl rfl rfl nofun
    | cons pkg rest =>
      dsimp only
      cases hdry : job.policy.dryRun with
      | true =>
        rw [if_pos rfl]
        refine h.of_job hjob _ rfl rfl ?_ nofun
        intro hlive
        rw [hdry] at hlive
        cases hlive
      | false =>
        rw [if_neg Bool.false_ne_true]
        exact h.begin_delete hjob hdry hphase
  | deleting pkg rest names =>
    dsimp only
    cases a.failure with
    | some e => exact hnothing _ rfl rfl rfl nofun
    | none => exact h.tombstone hjob hphase
  | cleaning pkg rest names =>
    refine h.of_job hjob _ rfl rfl ?_ ?_
    · intro _ pkg' hpkg'
      rw [hphase]
      dsimp only at hpkg'
      split_ifs at hpkg' <;> exact Or.inl hpkg'
    · intro pkg' rest' names'
      dsimp only
      split_ifs <;> exact nofun
  | sleeping rest names =>
    refine h.of_job hjob _ rfl rfl ?_ nofun
    intro _ pkg' hpkg'
    rw [hphase]
    exact Or.inl hpkg'
  | finished result => exact h

/-- A run that starts has read nothing. -/
theorem start_honoured (w : World) (registry : String) (policy : RetentionPolicy)
    (packages : Bool) (h : Honoured w) :
    Honoured { w with job := some (Job.new registry policy packages) } := by
  have hnone : (Job.new registry policy packages).inReach
      (Job.new registry policy packages).phase = [] := by
    unfold Job.new
    dsimp only
    split_ifs <;> rfl
  refine ⟨h.pins_kept, ?_, ?_, h.deletions⟩
  · intro c hc
    obtain ⟨-, pkg, hpkg, -⟩ := (Job.mem_exposed_iff _ c).mp hc
    rw [hnone] at hpkg
    cases hpkg
  · intro job hjob pkg rest names hphase
    obtain rfl := Option.some.inj hjob
    unfold Job.new at hphase
    dsimp only at hphase
    split_ifs at hphase

theorem step_honoured (w : World) (e : Event) (h : Honoured w) (hguard : PinsInTime w e) :
    Honoured (step w e) := by
  cases e with
  | setRetentionPin c keep refusal => exact pinStep_honoured w c keep refusal h hguard
  | start registry policy packages =>
    unfold step
    dsimp only
    split
    · exact start_honoured w registry policy packages h
    · split
      · exact start_honoured w registry policy packages h
      · exact h
  | advance a =>
    unfold step
    dsimp only
    split
    · exact h
    · rename_i job hjob
      exact advanceStep_honoured w job a hjob h

theorem run_honoured (table : Table) (events : List Event)
    (hguard : Runs.Guarded step PinsInTime (World.initial table) events) :
    Honoured (run (World.initial table) events) :=
  Runs.run_keeps PinsInTime Honoured step_honoured _ events (Honoured.initial table) hguard

end Invariant

/-- No version that the run deleted was pinned when its delete began. -/
theorem pinned_version_is_never_reclaimed (table : Table) (events : List Event)
    (hguard : Runs.Guarded step PinsInTime (World.initial table) events) :
    ∀ d ∈ (run (World.initial table) events).deletions, d.pinnedAtBegin = false :=
  (run_honoured table events hguard).deletions

section Samples

/-- Three versions of one package, the last of which the policy keeps. -/
def sampleTable : Table :=
  ((AList.insert ("npm", "a", "1.0") (⟨0, false, false, true⟩ : LocalRow) ∅).insert
    ("npm", "a", "1.1") ⟨5, false, false, true⟩).insert ("npm", "a", "2.0") ⟨9, false, false, true⟩

def samplePolicy : RetentionPolicy := ⟨some 1, none, none, true, 0, 0, false⟩

def answered : Event := .advance ⟨100, none, []⟩

/-- List, read, read the downloads and judge. -/
def judgedRun : List Event := [.start "npm" samplePolicy false, answered, answered, answered]

def pin (version : String) : Event := .setRetentionPin ("npm", "a", version) true none

theorem version_pinned_in_time_is_kept :
    (run (World.initial sampleTable)
        ([pin "1.0"] ++ judgedRun ++ List.replicate 4 answered)).deletions =
      [⟨("npm", "a", "1.1"), false⟩] ∧
    ∀ d ∈ (run (World.initial sampleTable)
      ([pin "1.0"] ++ judgedRun ++ List.replicate 4 answered)).deletions,
      d.pinnedAtBegin = false := by
  refine ⟨by decide +kernel, pinned_version_is_never_reclaimed sampleTable _ ?_⟩
  refine ⟨by decide +kernel, ?_⟩
  repeat' first | exact trivial | refine ⟨trivial, ?_⟩

/-- The pin lands between the judging and the delete: it is set, and the version goes. -/
theorem pin_after_the_reading_is_overrun :
    (pinStep (run (World.initial sampleTable) judgedRun) ("npm", "a", "1.0") true none).1 =
      .ok true ∧
    (run (World.initial sampleTable) (judgedRun ++ [pin "1.0", answered, answered])).deletions =
      [⟨("npm", "a", "1.0"), true⟩] := by
  refine ⟨?_, ?_⟩ <;> decide +kernel

end Samples

end BatleHub.Retention
