import BatleHub.ScanRecords
import BatleHub.Lib.Runs
import BatleHub.Lib.Slots

/-!
Reads against scans of one version, over a store whose last write wins. A read takes
the stored row, judges it and may write the result back later; a record takes the row,
carries forward and writes; a local publish writes without reading. What a completed
record wrote stays as long as no write-back lands that was read before it.
-/
namespace BatleHub.VerdictTraffic

open LocalPackages Verdicts VerdictEvaluation ScanRecords Lib.Runs Lib.Slots

/-- A call that has read the row and has not written yet. -/
inductive Task where
  | current (seen : ℕ) (snapshot : Option Verdict) (package : PackageMetadata)
      (policy : SecurityPolicy) (now : DateTime)
  | scan (snapshot : Option Verdict) (package : PackageMetadata) (policy : SecurityPolicy)
      (findings : List Finding) (done : List String) (now : DateTime)

/-- The stored row and the calls in flight. `scans` counts the completed records, and
`recorded` is what the newest of them wrote; no code reads either. -/
structure World where
  stored : Option Verdict
  tasks : ℕ → Option Task
  scans : ℕ
  recorded : Option Verdict

def World.initial (stored : Option Verdict) : World := ⟨stored, fun _ => none, 0, none⟩

inductive Event where
  | readCurrent (id : ℕ) (package : PackageMetadata) (policy : SecurityPolicy) (now : DateTime)
  | writeCurrent (id : ℕ)
  | readScan (id : ℕ) (package : PackageMetadata) (policy : SecurityPolicy)
      (findings : List Finding) (done : List String) (now : DateTime)
  | writeScan (id : ℕ)
  | publishLocal (package : PackageId) (policy : SecurityPolicy) (now : DateTime)

/-- A call has read the row. -/
def World.start (w : World) (id : ℕ) (task : Task) : World :=
  { w with tasks := Function.update w.tasks id (some task) }

/-- The end of a call of `current`: its answer is written back, or not. -/
def settleCurrent (w : World) (id : ℕ) (snapshot : Option Verdict) (answer : Verdict) : World :=
  { w with
    stored := (writtenBack snapshot answer).or w.stored
    tasks := Function.update w.tasks id none }

/-- The end of a call of `record_scan`. -/
def settleScan (w : World) (id : ℕ) (verdict : Verdict) : World :=
  { stored := some verdict
    tasks := Function.update w.tasks id none
    scans := w.scans + 1
    recorded := some verdict }

def step (w : World) : Event → World
  | .readCurrent id package policy now =>
    w.start id (.current w.scans w.stored package policy now)
  | .writeCurrent id =>
    match w.tasks id with
    | some (.current _ snapshot package policy now) =>
      settleCurrent w id snapshot (fresh snapshot package policy now)
    | _ => w
  | .readScan id package policy findings done now =>
    w.start id (.scan w.stored package policy findings done now)
  | .writeScan id =>
    match w.tasks id with
    | some (.scan snapshot package policy findings done now) =>
      settleScan w id (recordScan snapshot package policy findings done now)
    | _ => w
  | .publishLocal package policy now => { w with stored := some (firstSightLocal package policy now) }

/-- No record completed between the read of a call of `current` and its write, where it
writes, and none before a local publish. -/
def NoScanBetween (w : World) : Event → Prop
  | .writeCurrent id =>
    ∀ seen snapshot package policy now,
      w.tasks id = some (.current seen snapshot package policy now) →
      writtenBack snapshot (fresh snapshot package policy now) ≠ none → seen = w.scans
  | .publishLocal _ _ _ => w.scans = 0
  | _ => True

section Kept
-- what a verdict has, and the policies under which judging it again keeps it
variable {has : Verdict → Prop} {ok : SecurityPolicy → Prop}

/-- What the newest record had the row still has, and so has every snapshot taken since. -/
structure Kept (has : Verdict → Prop) (ok : SecurityPolicy → Prop) (w : World) : Prop where
  stored : ∀ r, w.recorded = some r → has r → ∃ v, w.stored = some v ∧ has v
  snapshot : ∀ id seen snapshot package policy now,
    w.tasks id = some (.current seen snapshot package policy now) → seen = w.scans →
    ∀ r, w.recorded = some r → has r → ∃ v, snapshot = some v ∧ has v
  seen_le : ∀ id seen snapshot package policy now,
    w.tasks id = some (.current seen snapshot package policy now) → seen ≤ w.scans
  policies : ∀ id seen snapshot package policy now,
    w.tasks id = some (.current seen snapshot package policy now) → ok policy
  unrecorded : w.scans = 0 → w.recorded = none

/-- The policies of the reads are all `ok`. -/
def ReadsUnder (ok : SecurityPolicy → Prop) : Event → Prop
  | .readCurrent _ _ policy _ => ok policy
  | _ => True

theorem kept_initial (stored : Option Verdict) : Kept has ok (World.initial stored) where
  stored := by simp [World.initial]
  snapshot := by simp [World.initial]
  seen_le := by simp [World.initial]
  policies := by simp [World.initial]
  unrecorded := by simp [World.initial]

theorem kept_readCurrent {w : World} (h : Kept has ok w) (id : ℕ) (package : PackageMetadata)
    {policy : SecurityPolicy} (hok : ok policy) (now : DateTime) :
    Kept has ok (step w (.readCurrent id package policy now)) where
  stored := h.stored
  snapshot := by
    intro id' seen snapshot package' policy' now' htask hseen r hr hhas
    rcases update_eq_some htask with hnew | hold
    · simp only [Option.some.injEq, Task.current.injEq] at hnew
      rw [← hnew.2.1]
      exact h.stored r hr hhas
    · exact h.snapshot id' seen snapshot package' policy' now' hold hseen r hr hhas
  seen_le := by
    intro id' seen snapshot package' policy' now' htask
    rcases update_eq_some htask with hnew | hold
    · simp only [Option.some.injEq, Task.current.injEq] at hnew
      exact hnew.1 ▸ Nat.le_refl _
    · exact h.seen_le id' seen snapshot package' policy' now' hold
  policies := by
    intro id' seen snapshot package' policy' now' htask
    rcases update_eq_some htask with hnew | hold
    · simp only [Option.some.injEq, Task.current.injEq] at hnew
      exact hnew.2.2.2.1 ▸ hok
    · exact h.policies id' seen snapshot package' policy' now' hold
  unrecorded := h.unrecorded

theorem kept_readScan {w : World} (h : Kept has ok w) (id : ℕ) (package : PackageMetadata)
    (policy : SecurityPolicy) (findings : List Finding) (done : List String) (now : DateTime) :
    Kept has ok (step w (.readScan id package policy findings done now)) := by
  have hold : ∀ {id' seen snapshot package' policy' now'},
      (step w (.readScan id package policy findings done now)).tasks id' =
        some (.current seen snapshot package' policy' now') →
      w.tasks id' = some (.current seen snapshot package' policy' now') := by
    intro id' seen snapshot package' policy' now' htask
    rcases update_eq_some htask with hnew | hold
    · simp at hnew
    · exact hold
  constructor
  · exact h.stored
  · intro id' seen snapshot package' policy' now' htask
    exact h.snapshot id' seen snapshot package' policy' now' (hold htask)
  · intro id' seen snapshot package' policy' now' htask
    exact h.seen_le id' seen snapshot package' policy' now' (hold htask)
  · intro id' seen snapshot package' policy' now' htask
    exact h.policies id' seen snapshot package' policy' now' (hold htask)
  · exact h.unrecorded

theorem kept_settleCurrent {w : World} (h : Kept has ok w) {id seen : ℕ}
    {snapshot : Option Verdict} {package : PackageMetadata} {policy : SecurityPolicy}
    {now : DateTime} (htask : w.tasks id = some (.current seen snapshot package policy now))
    (hguard : writtenBack snapshot (fresh snapshot package policy now) ≠ none → seen = w.scans)
    (hre : ∀ v package policy now, ok policy → has v →
      has (evaluate package v.findings v.scannersDone policy now v.lastScannedAt)) :
    Kept has ok (settleCurrent w id snapshot (fresh snapshot package policy now)) where
  stored := by
    intro r hr hhas
    cases hwritten : writtenBack snapshot (fresh snapshot package policy now) with
    | none =>
      obtain ⟨v, hv, hv'⟩ := h.stored r hr hhas
      exact ⟨v, by simp [settleCurrent, hwritten, hv], hv'⟩
    | some answer =>
      -- the snapshot is as new as the record, so it has what the record had
      have hseen := hguard (by simp [hwritten])
      obtain ⟨v, rfl, hv⟩ := h.snapshot id seen snapshot package policy now htask hseen r hr hhas
      have hanswer : answer = fresh (some v) package policy now := writtenBack_eq_some hwritten
      refine ⟨answer, by simp [settleCurrent, hwritten], ?_⟩
      rw [hanswer]
      exact hre v package policy now (h.policies id seen _ package policy now htask) hv
  snapshot := by
    intro id' seen' snapshot' package' policy' now' htask'
    exact h.snapshot id' seen' snapshot' package' policy' now' (eq_some_of_freed htask')
  seen_le := by
    intro id' seen' snapshot' package' policy' now' htask'
    exact h.seen_le id' seen' snapshot' package' policy' now' (eq_some_of_freed htask')
  policies := by
    intro id' seen' snapshot' package' policy' now' htask'
    exact h.policies id' seen' snapshot' package' policy' now' (eq_some_of_freed htask')
  unrecorded := h.unrecorded

theorem kept_settleScan {w : World} (h : Kept has ok w) (id : ℕ) (verdict : Verdict) :
    Kept has ok (settleScan w id verdict) where
  stored := by
    intro r hr hhas
    exact ⟨r, hr, hhas⟩
  snapshot := by
    -- every snapshot in flight is older than this record
    intro id' seen snapshot package policy now htask hseen
    have hle := h.seen_le id' seen snapshot package policy now (eq_some_of_freed htask)
    rw [hseen] at hle
    exact absurd hle (by simp [settleScan])
  seen_le := by
    intro id' seen snapshot package policy now htask
    exact Nat.le_succ_of_le (h.seen_le id' seen snapshot package policy now (eq_some_of_freed htask))
  policies := by
    intro id' seen snapshot package policy now htask
    exact h.policies id' seen snapshot package policy now (eq_some_of_freed htask)
  unrecorded := by simp [settleScan]

theorem kept_step {w : World} {e : Event} (h : Kept has ok w) (hguard : NoScanBetween w e)
    (hreads : ReadsUnder ok e)
    (hre : ∀ v package policy now, ok policy → has v →
      has (evaluate package v.findings v.scannersDone policy now v.lastScannedAt)) :
    Kept has ok (step w e) := by
  cases e with
  | readCurrent id package policy now => exact kept_readCurrent h id package hreads now
  | writeCurrent id =>
    simp only [step]
    split
    · rename_i seen snapshot package policy now htask
      exact kept_settleCurrent h htask (hguard seen snapshot package policy now htask) hre
    · exact h
  | readScan id package policy findings done now =>
    exact kept_readScan h id package policy findings done now
  | writeScan id =>
    simp only [step]
    split
    · exact kept_settleScan h id _
    · exact h
  | publishLocal package policy now =>
    constructor
    · intro r hr
      rw [show (step w (.publishLocal package policy now)).recorded = none from
        h.unrecorded hguard] at hr
      simp at hr
    · exact h.snapshot
    · exact h.seen_le
    · exact h.policies
    · exact h.unrecorded

theorem kept_run (has : Verdict → Prop) (stored : Option Verdict) (events : List Event)
    (hguard : Guarded step NoScanBetween (World.initial stored) events)
    (hreads : ∀ e ∈ events, ReadsUnder ok e)
    (hre : ∀ v package policy now, ok policy → has v →
      has (evaluate package v.findings v.scannersDone policy now v.lastScannedAt)) :
    Kept has ok (run step (World.initial stored) events) := by
  apply run_keeps (fun w e => NoScanBetween w e ∧ ReadsUnder ok e) (Kept has ok) ?_ _ events
    (kept_initial stored) (guarded_and_forall _ _ _ _ hguard hreads)
  intro w e h hboth
  exact kept_step h hboth.1 hboth.2 hre

end Kept

theorem readsUnder_true (e : Event) : ReadsUnder (fun _ => True) e := by
  cases e <;> trivial

/-- A read never loses a scan: where no write-back lands that was read before a completed
record, the row has every scanner mark and every finding of the newest record, every
read denies for a finding its policy denies, and a denial stays stored. -/
theorem scan_survives_reads (stored : Option Verdict) (events : List Event)
    (hguard : Guarded step NoScanBetween (World.initial stored) events) (r : Verdict)
    (hr : (run step (World.initial stored) events).recorded = some r) :
    ∃ v, (run step (World.initial stored) events).stored = some v ∧
      (∀ s ∈ r.scannersDone, s ∈ v.scannersDone) ∧
      ∀ f ∈ content r.findings, (∃ g ∈ v.findings, Raised f g) ∧
        (∀ package policy now, classify policy f = some .denied →
          (fresh (some v) package policy now).state = .denied) ∧
        (r.state = .denied →
          (∀ id package policy now, .readCurrent id package policy now ∈ events →
            classify policy f = some .denied) → v.state = .denied) := by
  have hnone : ∀ e ∈ events, ReadsUnder (fun _ => True) e := fun e _ => readsUnder_true e
  -- the marks first: they fix the row
  have hmarks := kept_run (fun v => ∀ s ∈ r.scannersDone, s ∈ v.scannersDone) stored events
    hguard hnone (fun v package policy now _ h => h)
  obtain ⟨v, hv, hdone⟩ := hmarks.stored r hr (fun s hs => hs)
  refine ⟨v, hv, hdone, ?_⟩
  intro f hf
  have hcarries : Carries v f := by
    have hkept := kept_run (fun v => Carries v f) stored events hguard hnone
      (fun v package policy now _ h => h.evaluate)
    obtain ⟨v', hv', hcarries⟩ := hkept.stored r hr ⟨f, hf, Raised.refl f⟩
    rw [hv] at hv'
    obtain rfl := Option.some.inj hv'
    exact hcarries
  refine ⟨?_, ?_, ?_⟩
  · obtain ⟨g, hg, hraised⟩ := hcarries
    exact ⟨g, (mem_content.mp hg).1, hraised⟩
  · intro package policy now hdenied
    exact hcarries.denied hdenied
  · intro hstate hpolicies
    have hreads : ∀ e ∈ events, ReadsUnder (fun policy => classify policy f = some .denied) e := by
      intro e he
      cases e with
      | readCurrent id package policy now => exact hpolicies id package policy now he
      | writeCurrent id => trivial
      | readScan id package policy findings done now => trivial
      | writeScan id => trivial
      | publishLocal package policy now => trivial
    have hkept := kept_run (fun v => Carries v f ∧ v.state = .denied) stored events hguard
      hreads (fun v package policy now hdenied h => ⟨h.1.evaluate, h.1.denied hdenied⟩)
    obtain ⟨v', hv', -, hdenied⟩ := hkept.stored r hr ⟨⟨f, hf, Raised.refl f⟩, hstate⟩
    rw [hv] at hv'
    obtain rfl := Option.some.inj hv'
    exact hdenied

section Stale

def profile : SecurityPolicy := SecurityPolicy.defaultsFor "npm"

/-- A scan that finds a critical vulnerability. -/
def found : Verdict := recordScan none leftpad profile [criticalFinding] ["osv"] (2 * day)

/-- The scan, then a read. -/
def readAfterScan : List Event :=
  [.readScan 1 leftpad profile [criticalFinding] ["osv"] (2 * day), .writeScan 1,
    .readCurrent 0 leftpad profile (3 * day), .writeCurrent 0]

/-- A first sight that reads before the scan and writes after it. -/
def readAroundScan : List Event :=
  [.readCurrent 0 leftpad profile (2 * day),
    .readScan 1 leftpad profile [criticalFinding] ["osv"] (2 * day), .writeScan 1,
    .writeCurrent 0]

theorem scan_survives_later_read :
    ∃ v, (run step (World.initial none) readAfterScan).stored = some v ∧
      (∀ s ∈ found.scannersDone, s ∈ v.scannersDone) ∧
      ∃ g ∈ v.findings, Raised criticalFinding g := by
  have hguard : Guarded step NoScanBetween (World.initial none) readAfterScan := by
    refine ⟨trivial, trivial, trivial, ?_, trivial⟩
    intro seen snapshot package policy now htask hwrites
    have hsame := Option.some.inj htask
    rw [Task.current.injEq] at hsame
    exact hsame.1.symm
  obtain ⟨v, hv, hdone, hkept⟩ := scan_survives_reads none _ hguard found rfl
  exact ⟨v, hv, hdone, (hkept criticalFinding List.mem_cons_self).1⟩

/-- The denied version is stored as pending and, being mature, served. -/
theorem scan_lost_to_first_sight :
    ∃ v, (run step (World.initial none) readAroundScan).recorded = some found ∧
      found.state = .denied ∧ criticalFinding ∈ found.findings ∧ "osv" ∈ found.scannersDone ∧
      (run step (World.initial none) readAroundScan).stored = some v ∧
      "osv" ∉ v.scannersDone ∧ (¬ ∃ g ∈ v.findings, Raised criticalFinding g) ∧
      v.reasonCodes = [.scanPending] ∧ v.isServed = true := by
  refine ⟨_, rfl, rfl, List.mem_cons_self, List.mem_cons_self, rfl, List.not_mem_nil, ?_, rfl, rfl⟩
  intro hkept
  obtain ⟨g, hg, hraised⟩ := hkept
  obtain rfl := List.mem_singleton.mp hg
  exact absurd hraised.code_eq (by decide)

end Stale

end BatleHub.VerdictTraffic
