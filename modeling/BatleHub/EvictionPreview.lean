import BatleHub.EvictionScope
import BatleHub.SizeCap
import Mathlib.Algebra.Order.BigOperators.Group.List

/-!
The eviction preview against the live run. Both take the same walk, but every strategy of the
preview sees the table as it was, and its size cap one page of another length. What the two
count is the same as long as no strategy takes what another counts.
-/
namespace BatleHub.Eviction

open LocalPackages (DateTime)
open Lib.StableSort

section Reports

def EvictionReport.recordAll (report : EvictionReport) (keys : List String) : EvictionReport :=
  keys.foldl EvictionReport.record report

def EvictionReport.asLive (report : EvictionReport) : EvictionReport :=
  { report with dryRun := false }

/-- What a strategy without failures does to the report. -/
def sweepReport (held : List String) (strategy : Strategy) :
    Option (List ArtifactMeta) → EvictionReport → EvictionReport
  | none, report => report
  | some rows, report =>
    ((report.recordAll ((free held rows).map ArtifactMeta.artifactKey)).countHeld
      (kept held rows).length).count (free held rows).length strategy

theorem record_asLive (report : EvictionReport) (key : String) :
    report.asLive.record key = (report.record key).asLive := by
  unfold EvictionReport.record EvictionReport.asLive
  dsimp only
  split
  · rfl
  · rfl

theorem recordAll_asLive (report : EvictionReport) (keys : List String) :
    report.asLive.recordAll keys = (report.recordAll keys).asLive := by
  induction keys generalizing report with
  | nil => rfl
  | cons key keys ih =>
    unfold EvictionReport.recordAll at ih ⊢
    rw [List.foldl_cons, List.foldl_cons, record_asLive, ih]

theorem count_asLive (report : EvictionReport) (n : ℕ) (strategy : Strategy) :
    report.asLive.count n strategy = (report.count n strategy).asLive := by
  cases strategy with
  | ttl => rfl
  | idle => rfl
  | keepLatestN => rfl
  | lru => rfl

theorem sweepReport_asLive (held : List String) (strategy : Strategy)
    (candidates : Option (List ArtifactMeta)) (report : EvictionReport) :
    sweepReport held strategy candidates report.asLive =
      (sweepReport held strategy candidates report).asLive := by
  cases candidates with
  | none => rfl
  | some rows =>
    dsimp only [sweepReport]
    rw [recordAll_asLive, ← count_asLive]
    rfl

theorem recordAll_held (report : EvictionReport) (keys : List String) :
    (report.recordAll keys).held = report.held := by
  induction keys generalizing report with
  | nil => rfl
  | cons key keys ih =>
    have hone : (report.record key).held = report.held := by
      unfold EvictionReport.record
      split
      · rfl
      · rfl
    exact (ih (report.record key)).trans hone

/-- The count of a strategy in a report. -/
def EvictionReport.evicted (report : EvictionReport) : Strategy → ℕ
  | .ttl => report.evictedTtl
  | .idle => report.evictedIdle
  | .keepLatestN => report.evictedOldVersions
  | .lru => report.evictedLru

theorem recordAll_evicted (report : EvictionReport) (keys : List String) (strategy : Strategy) :
    (report.recordAll keys).evicted strategy = report.evicted strategy := by
  induction keys generalizing report with
  | nil => rfl
  | cons key keys ih =>
    have hone : (report.record key).evicted strategy = report.evicted strategy := by
      unfold EvictionReport.record
      split
      · cases strategy <;> rfl
      · cases strategy <;> rfl
    exact (ih (report.record key)).trans hone

theorem count_evicted (report : EvictionReport) (n : ℕ) (strategy other : Strategy) :
    (report.count n strategy).evicted other =
      if other = strategy then n else report.evicted other := by
  cases strategy <;> cases other <;> rfl

theorem count_held (report : EvictionReport) (n : ℕ) (strategy : Strategy) :
    (report.count n strategy).held = report.held := by
  cases strategy <;> rfl

theorem sweepReport_held (held : List String) (strategy : Strategy)
    (candidates : Option (List ArtifactMeta)) (report : EvictionReport) :
    (sweepReport held strategy candidates report).held =
      report.held + (kept held (candidates.getD [])).length := by
  cases candidates with
  | none => rfl
  | some rows =>
    dsimp only [sweepReport]
    rw [count_held]
    exact congrArg (· + _) (recordAll_held report _)

theorem recordAll_incomplete (report : EvictionReport) (keys : List String) :
    (report.recordAll keys).incompleteBecause = report.incompleteBecause := by
  induction keys generalizing report with
  | nil => rfl
  | cons key keys ih =>
    have hone : (report.record key).incompleteBecause = report.incompleteBecause := by
      unfold EvictionReport.record
      split
      · rfl
      · rfl
    exact (ih (report.record key)).trans hone

theorem sweepReport_incomplete (held : List String) (strategy : Strategy)
    (candidates : Option (List ArtifactMeta)) (report : EvictionReport) :
    (sweepReport held strategy candidates report).incompleteBecause =
      report.incompleteBecause := by
  cases candidates with
  | none => rfl
  | some rows =>
    refine Eq.trans ?_ (recordAll_incomplete report ((free held rows).map ArtifactMeta.artifactKey))
    cases strategy <;> rfl

theorem sweepReport_evicted (held : List String) (strategy other : Strategy)
    (candidates : Option (List ArtifactMeta)) {report : EvictionReport}
    (hnone : report.evicted strategy = 0) :
    (sweepReport held strategy candidates report).evicted other =
      if other = strategy then (free held (candidates.getD [])).length
      else report.evicted other := by
  cases candidates with
  | none =>
    split
    · rename_i heq
      rw [heq]
      exact hnone
    · rfl
  | some rows =>
    dsimp only [sweepReport]
    rw [count_evicted]
    split
    · rfl
    · have hrecorded :=
        recordAll_evicted report ((free held rows).map ArtifactMeta.artifactKey) other
      rw [← hrecorded]
      cases other <;> rfl

end Reports

section Candidates
variable (config : EvictionConfig) (now : DateTime) (table : ArtifactTable)

def ttlCandidates : Option (List ArtifactMeta) :=
  config.artifactTtlSecs.bind fun secs =>
    (cutoff secondUnit secs now).map (table.listExpiredByTtl config.registry)

def idleCandidates : Option (List ArtifactMeta) :=
  config.idleDays.bind fun days =>
    (cutoff dayUnit days now).map (table.listIdle config.registry)

def latestCandidates : Option (List ArtifactMeta) :=
  config.keepLatestN.map fun n =>
    if n = 0 then [] else beyondWindow n none 0 table.listArtifactsByPackage

variable {config now table} {held : List String} {row : ArtifactMeta}

theorem mem_ttlCandidates :
    row ∈ free held ((ttlCandidates config now table).getD []) ↔
      Expired config held now table row := by
  unfold free Expired ttlCandidates
  rw [List.mem_filter, Bool.not_eq_true', and_comm]
  refine and_congr_right fun _ => ?_
  cases config.artifactTtlSecs with
  | none => simp
  | some secs =>
    cases hcutoff : cutoff secondUnit secs now with
    | none => simp [hcutoff]
    | some olderThan => simp [hcutoff]

theorem mem_idleCandidates :
    row ∈ free held ((idleCandidates config now table).getD []) ↔
      Idle config held now table row := by
  unfold free Idle idleCandidates
  rw [List.mem_filter, Bool.not_eq_true', and_comm]
  refine and_congr_right fun _ => ?_
  cases config.idleDays with
  | none => simp
  | some days =>
    cases hcutoff : cutoff dayUnit days now with
    | none => simp [hcutoff]
    | some idleSince => simp [hcutoff]

theorem mem_latestCandidates :
    row ∈ free held ((latestCandidates config table).getD []) ↔ Beyond config held table row := by
  unfold free Beyond latestCandidates
  rw [List.mem_filter, Bool.not_eq_true', and_comm]
  refine and_congr_right fun _ => ?_
  cases config.keepLatestN with
  | none => simp
  | some n =>
    cases n with
    | zero => simp
    | succ n => simp

end Candidates

section Stages
variable {service : EvictionService} {s : Run}

theorem takeAll_report (strategy : Strategy) (rows : List ArtifactMeta) (s : Run) :
    (takeAll strategy rows s).report =
      s.report.recordAll (rows.map ArtifactMeta.artifactKey) := by
  induction rows generalizing s with
  | nil => rfl
  | cons row rows ih => exact ih (takeOut strategy s row)

/-- What a strategy over known candidates leaves when no delete fails. -/
structure Swept (service : EvictionService) (strategy : Strategy)
    (candidates : Option (List ArtifactMeta)) (s s' : Run) : Prop where
  report : s'.report = sweepReport service.held strategy candidates s.report
  dryRun : s'.report.dryRun = s.report.dryRun
  dry : s.report.dryRun = true → s'.table = s.table ∧ s'.blobs = s.blobs
  live : s.report.dryRun = false → s'.table.rows =
    s.table.rows.filter fun row => !decide (row ∈ free service.held (candidates.getD []))

theorem Swept.none (strategy : Strategy) (s : Run) : Swept service strategy .none s s where
  report := rfl
  dryRun := rfl
  dry := fun _ => ⟨rfl, rfl⟩
  live := fun _ => (List.filter_eq_self.mpr fun _ _ => rfl).symm

theorem swept_dropEach (strategy : Strategy) {rows : List ArtifactMeta} (h : Works service s)
    (hrows : ∀ row ∈ rows, row ∈ s.table.rows) :
    Swept service strategy (some rows) s
      (counted strategy (dropEach service strategy rows 0 s)).2 := by
  rw [dropEach_eq strategy rows 0 h]
  refine ⟨?_, ?_, ?_, ?_⟩
  · dsimp only [counted, sweepReport, Run.countHeld]
    rw [takeAll_report, Nat.zero_add]
  · exact (dryRun_count ..).trans (takeAll_dryRun ..)
  · exact fun hdry => takeAll_dry hdry strategy _
  · exact fun hlive => takeAll_rows hlive fun row hrow => hrows row (List.mem_of_mem_filter hrow)

variable (service)

theorem runTtl_swept (hpanics : ¬ TtlPanics service.config service.now) (h : Works service s) :
    (runTtl service s).1 = .finished ∧
      Swept service .ttl (ttlCandidates service.config service.now s.table) s
        (runTtl service s).2 := by
  unfold runTtl ttlCandidates
  cases httl : service.config.artifactTtlSecs with
  | none => exact ⟨rfl, Swept.none .ttl s⟩
  | some secs =>
    dsimp only
    rw [Option.bind_some]
    cases hcutoff : cutoff secondUnit secs service.now with
    | none => exact absurd ⟨secs, httl, hcutoff⟩ hpanics
    | some olderThan =>
      refine ⟨rfl, swept_dropEach .ttl h ?_⟩
      intro row hrow
      exact List.mem_of_mem_filter (List.mem_of_mem_filter hrow)

theorem runIdle_swept (hpanics : ¬ IdlePanics service.config service.now) (h : Works service s) :
    (runIdle service s).1 = .finished ∧
      Swept service .idle (idleCandidates service.config service.now s.table) s
        (runIdle service s).2 := by
  unfold runIdle idleCandidates
  cases hidle : service.config.idleDays with
  | none => exact ⟨rfl, Swept.none .idle s⟩
  | some days =>
    dsimp only
    rw [Option.bind_some]
    cases hcutoff : cutoff dayUnit days service.now with
    | none => exact absurd ⟨days, hidle, hcutoff⟩ hpanics
    | some idleSince =>
      refine ⟨rfl, swept_dropEach .idle h ?_⟩
      intro row hrow
      exact List.mem_of_mem_filter (List.mem_of_mem_filter hrow)

theorem runKeepLatestN_swept (h : Works service s) :
    (runKeepLatestN service s).1 = .finished ∧
      Swept service .keepLatestN (latestCandidates service.config s.table) s
        (runKeepLatestN service s).2 := by
  unfold runKeepLatestN latestCandidates
  cases hkeep : service.config.keepLatestN with
  | none => exact ⟨rfl, Swept.none .keepLatestN s⟩
  | some n =>
    cases n with
    | zero =>
      have hrows : ∀ row ∈ ([] : List ArtifactMeta), row ∈ s.table.rows := by
        intro row hrow
        cases hrow
      exact ⟨rfl, swept_dropEach .keepLatestN h hrows⟩
    | succ n =>
      refine ⟨rfl, swept_dropEach .keepLatestN h ?_⟩
      intro row hrow
      exact (mem_beyondWindow.mp hrow).1

end Stages

section Window
variable {table table' : ArtifactTable} {n : ℕ} {row : ArtifactMeta}

theorem nodup_listArtifactsByPackage (table : ArtifactTable) :
    table.listArtifactsByPackage.Nodup :=
  (List.perm_insertionSort _ _).nodup_iff.mpr table.keys.of_map

theorem beyondWindow_sublist (n : ℕ) (current : Option (String × String)) (pos : ℕ)
    (rows : List ArtifactMeta) : (beyondWindow n current pos rows).Sublist rows := by
  induction rows generalizing current pos with
  | nil => exact List.Sublist.refl _
  | cons row rows ih =>
    rw [beyondWindow]
    generalize (if current = some row.group then pos + 1 else 1) = pos'
    split
    · exact (ih _ _).cons row
    · exact (ih _ _).cons_cons row

theorem beyondWindow_eq_filter (n : ℕ) (table : ArtifactTable) :
    beyondWindow n none 0 table.listArtifactsByPackage =
      table.listArtifactsByPackage.filter fun row => decide (n ≤ table.position row) := by
  rw [sublist_eq_filter (beyondWindow_sublist n none 0 _) (nodup_listArtifactsByPackage table)]
  refine List.filter_congr ?_
  intro row hrow
  rw [decide_eq_decide, mem_beyondWindow]
  exact and_iff_right ((List.mem_insertionSort _).mp hrow)

theorem groupCount_perm (group : String × String) {rows rows' : List ArtifactMeta}
    (h : rows.Perm rows') : groupCount group rows = groupCount group rows' :=
  (h.filter _).length_eq

theorem groupCount_rows (table : ArtifactTable) (group : String × String) :
    groupCount group table.rows = groupCount group table.listArtifactsByPackage :=
  groupCount_perm group (List.perm_insertionSort _ _).symm

theorem position_lt_groupCount (hrow : row ∈ table.rows) :
    table.position row < groupCount row.group table.rows := by
  obtain ⟨before, after, hsplit⟩ := split_of_mem hrow
  rw [position_of_split hsplit, groupCount_rows, hsplit, groupCount_append]
  refine Nat.lt_add_of_pos_right (List.length_pos_of_mem (a := row) ?_)
  exact List.mem_filter.mpr ⟨List.mem_cons_self, decide_eq_true rfl⟩

/-- Where only packages within the window lose rows, the candidates stay. -/
theorem beyondWindow_eq (hsub : table'.rows.Sublist table.rows)
    (hgroups : ∀ row ∈ table.rows, row ∉ table'.rows → groupCount row.group table.rows ≤ n) :
    beyondWindow n none 0 table'.listArtifactsByPackage =
      beyondWindow n none 0 table.listArtifactsByPackage := by
  rw [beyondWindow_eq_filter, beyondWindow_eq_filter, listArtifactsByPackage_sublist hsub,
    List.filter_filter]
  refine List.filter_congr ?_
  intro row hlisted
  have hrow : row ∈ table.rows := (List.mem_insertionSort _).mp hlisted
  rw [← Bool.decide_and, decide_eq_decide]
  constructor
  · rintro ⟨hn, hrow'⟩
    exact hn.trans (position_mono hsub hrow')
  · intro hn
    have hlarge : n < groupCount row.group table.rows :=
      hn.trans_lt (position_lt_groupCount hrow)
    have hstays : ∀ r ∈ table.rows, r.group = row.group → r ∈ table'.rows := by
      intro r hr hgroup
      by_contra hgone
      exact absurd (hgroups r hr hgone) (Nat.not_le.mpr (hgroup ▸ hlarge))
    have hrow' := hstays row hrow rfl
    refine ⟨?_, hrow'⟩
    obtain ⟨before, after, hsplit⟩ := split_of_mem hrow
    rw [position_of_sublist hsub hrow' hsplit]
    rw [position_of_split hsplit] at hn
    refine hn.trans_eq ?_
    unfold groupCount
    rw [List.filter_comm]
    congr 1
    refine (List.filter_eq_self.mpr ?_).symm
    intro r hr
    obtain ⟨hbefore, hgroup⟩ := List.mem_filter.mp hr
    have hlist : r ∈ table.listArtifactsByPackage := hsplit ▸ List.mem_append_left _ hbefore
    exact decide_eq_true
      (hstays r ((List.mem_insertionSort _).mp hlist) (of_decide_eq_true hgroup))

/-- The element of a list behind just `n` others that satisfy a predicate. -/
theorem exists_split_filter {α : Type*} (p : α → Bool) {l : List α}
    (h : n < (l.filter p).length) :
    ∃ before a after, l = before ++ a :: after ∧ p a = true ∧ (before.filter p).length = n := by
  induction l generalizing n with
  | nil => exact absurd h (Nat.not_lt_zero _)
  | cons b l ih =>
    by_cases hb : p b = true
    · cases n with
      | zero => exact ⟨[], b, l, rfl, hb, rfl⟩
      | succ n =>
        rw [List.filter_cons_of_pos hb] at h
        obtain ⟨before, a, after, rfl, ha, hlength⟩ := ih (Nat.lt_of_succ_lt_succ h)
        refine ⟨b :: before, a, after, rfl, ha, ?_⟩
        rw [List.filter_cons_of_pos hb]
        exact congrArg Nat.succ hlength
    · rw [List.filter_cons_of_neg hb] at h
      obtain ⟨before, a, after, rfl, ha, hlength⟩ := ih h
      refine ⟨b :: before, a, after, rfl, ha, ?_⟩
      rw [List.filter_cons_of_neg hb]
      exact hlength

/-- A package with more rows than the window has fewer behind it when it loses one. -/
theorem beyondWindow_lt (hsub : table'.rows.Sublist table.rows) (hrow : row ∈ table.rows)
    (hgone : row ∉ table'.rows) (hlarge : n < groupCount row.group table.rows) :
    (beyondWindow n none 0 table'.listArtifactsByPackage).length <
      (beyondWindow n none 0 table.listArtifactsByPackage).length := by
  -- one that was behind the window, and is now gone or has moved into it
  have hone : ∃ r, r ∈ beyondWindow n none 0 table.listArtifactsByPackage ∧
      r ∉ beyondWindow n none 0 table'.listArtifactsByPackage := by
    by_cases hn : n ≤ table.position row
    · exact ⟨row, mem_beyondWindow.mpr ⟨hrow, hn⟩, fun hmem => hgone (mem_beyondWindow.mp hmem).1⟩
    · rw [groupCount_rows] at hlarge
      obtain ⟨before, r, after, hsplit, hgroup, hcount⟩ := exists_split_filter _ hlarge
      have hr : r.group = row.group := of_decide_eq_true hgroup
      have hrn : table.position r = n := by
        rw [position_of_split hsplit, hr]
        exact hcount
      have hlisted : r ∈ table.listArtifactsByPackage :=
        hsplit ▸ List.mem_append_right _ List.mem_cons_self
      refine ⟨r, mem_beyondWindow.mpr ⟨(List.mem_insertionSort _).mp hlisted, hrn.ge⟩, ?_⟩
      intro hmem
      obtain ⟨hr', hn'⟩ := mem_beyondWindow.mp hmem
      rw [position_of_sublist hsub hr' hsplit, hr] at hn'
      have hbefore : row ∈ before := by
        have hrowlist : row ∈ table.listArtifactsByPackage :=
          (List.mem_insertionSort _).mpr hrow
        rw [hsplit, List.mem_append, List.mem_cons] at hrowlist
        rcases hrowlist with hfront | rfl | hback
        · exact hfront
        · exact absurd hr' hgone
        · obtain ⟨mid, rest, rfl⟩ := List.append_of_mem hback
          have hsplit' : table.listArtifactsByPackage = (before ++ r :: mid) ++ row :: rest := by
            rw [hsplit, List.append_assoc, List.cons_append]
          rw [position_of_split hsplit', groupCount_append] at hn
          exact absurd (Nat.le_add_right_of_le hcount.ge) hn
      have hless : groupCount row.group (before.filter fun r => decide (r ∈ table'.rows)) <
          groupCount row.group before := by
        unfold groupCount
        rw [List.filter_comm]
        refine List.length_filter_lt_length_iff_exists.mpr ⟨row, ?_, by simpa using hgone⟩
        exact List.mem_filter.mpr ⟨hbefore, decide_eq_true rfl⟩
      exact absurd (hn'.trans_lt (hless.trans_eq hcount)) (Nat.lt_irrefl n)
  obtain ⟨r, hr, hr'⟩ := hone
  have hnodup := (nodup_listArtifactsByPackage table').sublist (beyondWindow_sublist n none 0 _)
  refine (List.subperm_of_subset (List.nodup_cons.mpr ⟨hr', hnodup⟩) ?_).length_le
  intro r₁ hmem
  rcases List.mem_cons.mp hmem with rfl | hin
  · exact hr
  · obtain ⟨hrow₁, hn₁⟩ := mem_beyondWindow.mp hin
    exact mem_beyondWindow.mpr ⟨hsub.subset hrow₁, hn₁.trans (position_mono hsub hrow₁)⟩

end Window

section Cap
variable {service : EvictionService} {s s' : Run} {cap total : ℕ} {held : List String}

theorem kept_take {rows : List ArtifactMeta} (h : kept held rows = []) (n : ℕ) :
    kept held (rows.take n) = [] :=
  List.sublist_nil.mp (h ▸ (List.take_sublist n rows).filter _)

theorem presentFirst_free {rows : List ArtifactMeta} (h : kept held rows = []) :
    presentFirst held rows = rows := by
  have hall : ∀ row ∈ rows, (!isHeld held row) = true := by
    intro row hrow
    have hfalse := List.filter_eq_nil_iff.mp h row hrow
    rw [Bool.not_eq_true] at hfalse
    rw [hfalse]
    rfl
  have hnone : rows.filter (isHeld held) = [] := h
  unfold presentFirst
  rw [hnone, List.append_nil, List.filter_eq_self.mpr hall]

theorem heldBack_free {rows : List ArtifactMeta} (h : kept held rows = []) :
    heldBack held cap total rows = 0 := by
  unfold heldBack
  dsimp only
  rw [h, List.length_nil, ite_self]

/-- Without lost rows there is nothing to put behind others. -/
theorem pageOrder_free {rows : List ArtifactMeta} (h : kept held rows = []) :
    pageOrder held rows = rows ∧ ∀ total, pageHeld held cap total rows = 0 := by
  induction rows using pageOrder.induct with
  | case1 => exact ⟨pageOrder_nil held, fun total => pageHeld_nil held total⟩
  | case2 rows hne ih =>
    have hdrop : kept held (rows.drop lruPage) = [] :=
      List.sublist_nil.mp (h ▸ (List.drop_sublist lruPage rows).filter _)
    refine ⟨?_, fun total => ?_⟩
    · rw [pageOrder, if_neg hne, (ih hdrop).1, presentFirst_free (kept_take h _),
        List.take_append_drop]
    · rw [pageHeld, heldBack_free (kept_take h _), (ih hdrop).2, ite_self]

/-- One page of the loop is one page of the preview. -/
theorem pageOrder_page {rows : List ArtifactMeta} (h : rows.length ≤ lruPage)
    (htotal : cap < total) (hrows : rows ≠ []) :
    pageOrder held rows = presentFirst held rows ∧
      pageHeld held cap total rows = heldBack held cap total rows := by
  refine ⟨?_, ?_⟩
  · rw [pageOrder, if_neg hrows, List.take_of_length_le h, List.drop_eq_nil_of_le h,
      pageOrder_nil, List.append_nil]
  · rw [pageHeld, if_neg (not_or.mpr ⟨hrows, Nat.not_le.mpr htotal⟩), List.take_of_length_le h,
      List.drop_eq_nil_of_le h, pageHeld_nil, Nat.add_zero]

/-- All lost rows are on the loop's first page, and the present ones there are enough. -/
def FirstPageSuffices (held : List String) (cap total : ℕ) (rows : List ArtifactMeta) : Prop :=
  kept held (rows.drop lruPage) = [] ∧ total - sizes (free held (rows.take lruPage)) ≤ cap

/-- Candidates whose first present rows are enough: no lost one goes, and all are held back. -/
theorem presentFirst_enough {candidates present : List ArtifactMeta}
    (hfirst : present <+: free held candidates) (henough : total - sizes present ≤ cap) :
    evictUntil cap total (presentFirst held candidates) = evictUntil cap total present ∧
      heldBack held cap total candidates = (kept held candidates).length := by
  obtain ⟨rest, hrest⟩ := hfirst
  have hreached : total - sizes (evictUntil cap total present) ≤ cap := by
    rcases evictUntil_spec total present with hle | hall
    · exact hle
    · rw [hall]
      exact henough
  have hgone : evictUntil cap total (presentFirst held candidates) =
      evictUntil cap total present := by
    have hshape : presentFirst held candidates = present ++ (rest ++ kept held candidates) := by
      rw [← List.append_assoc, hrest]
      rfl
    rw [hshape, evictUntil_append, evictUntil_of_le hreached, List.append_nil]
  have hnone : kept held (evictUntil cap total present) = [] := by
    refine List.filter_eq_nil_iff.mpr ?_
    intro row hrow
    have hfree : row ∈ free held candidates :=
      hrest ▸ List.mem_append_left rest ((evictUntil_first total present).subset hrow)
    rw [isHeld_free hfree]
    exact Bool.false_ne_true
  refine ⟨hgone, ?_⟩
  unfold heldBack
  dsimp only
  rw [hgone, hnone, List.length_nil, if_pos ⟨rfl, hreached⟩]

/-- A loop that ends on its first page takes what the preview's longer page takes. -/
theorem preview_eq_first_page {rows : List ArtifactMeta} (hover : cap < total) (hne : rows ≠ [])
    (h : FirstPageSuffices held cap total rows) :
    evictUntil cap total (presentFirst held (rows.take MAX_REPORTED_KEYS)) =
        evictUntil cap total (pageOrder held rows) ∧
      heldBack held cap total (rows.take MAX_REPORTED_KEYS) = pageHeld held cap total rows := by
  obtain ⟨hlost, henough⟩ := h
  have htake : rows.take MAX_REPORTED_KEYS =
      rows.take lruPage ++ (rows.drop lruPage).take (MAX_REPORTED_KEYS - lruPage) := by
    rw [← List.take_add]
    rfl
  have hlong : free held (rows.take lruPage) <+: free held (rows.take MAX_REPORTED_KEYS) := by
    rw [htake, free_append]
    exact List.prefix_append _ _
  obtain ⟨hpreview, hheld⟩ := presentFirst_enough hlong henough
  have hfirst : free held (rows.take lruPage) <+: free held (rows.take lruPage) :=
    List.prefix_rfl
  obtain ⟨hloop, hheld'⟩ := presentFirst_enough hfirst henough
  have hreached : total - sizes (evictUntil cap total (free held (rows.take lruPage))) ≤ cap := by
    rcases evictUntil_spec total (free held (rows.take lruPage)) with hle | hall
    · exact hle
    · rw [hall]
      exact henough
  have hkept : kept held (rows.take MAX_REPORTED_KEYS) = kept held (rows.take lruPage) := by
    have hmid : kept held ((rows.drop lruPage).take (MAX_REPORTED_KEYS - lruPage)) = [] :=
      kept_take hlost _
    have happend : kept held (rows.take MAX_REPORTED_KEYS) = kept held (rows.take lruPage) ++
        kept held ((rows.drop lruPage).take (MAX_REPORTED_KEYS - lruPage)) := by
      rw [htake]
      exact List.filter_append ..
    rw [happend, hmid, List.append_nil]
  refine ⟨?_, ?_⟩
  · rw [pageOrder, if_neg hne, evictUntil_append, hloop, evictUntil_of_le hreached,
      List.append_nil, hpreview]
  · rw [pageHeld, if_neg (not_or.mpr ⟨hne, Nat.not_le.mpr hover⟩), hloop,
      pageHeld_of_le hreached, hheld, hheld', hkept, Nat.add_zero]

/-- A complete preview takes what the pages of the loop take. -/
theorem preview_eq_pages {rows : List ArtifactMeta} (htotal : total = sizes rows)
    (hover : cap < total)
    (hpages : kept held rows = [] ∨ rows.length ≤ lruPage ∨ FirstPageSuffices held cap total rows)
    (hcomplete : ¬ (cap < total - sizes (evictUntil cap total (presentFirst held
        (rows.take MAX_REPORTED_KEYS))) ∧
      MAX_REPORTED_KEYS ≤ (rows.take MAX_REPORTED_KEYS).length)) :
    evictUntil cap total (presentFirst held (rows.take MAX_REPORTED_KEYS)) =
        evictUntil cap total (pageOrder held rows) ∧
      heldBack held cap total (rows.take MAX_REPORTED_KEYS) = pageHeld held cap total rows := by
  have hne : rows ≠ [] := by
    rintro rfl
    rw [htotal] at hover
    exact Nat.not_lt_zero _ hover
  rcases hpages with hfree | hpage | hsuffices
  · have hpresent := presentFirst_free (kept_take hfree MAX_REPORTED_KEYS)
    obtain ⟨horder, hheld⟩ : _ ∧ ∀ total, pageHeld held cap total rows = 0 :=
      pageOrder_free hfree
    rw [hpresent] at hcomplete
    rw [hpresent, horder, hheld, heldBack_free (kept_take hfree _)]
    refine ⟨?_, rfl⟩
    rcases not_and_or.mp hcomplete with hreached | hshort
    · have happend : evictUntil cap total _ = _ :=
        evictUntil_append total (rows.take MAX_REPORTED_KEYS) (rows.drop MAX_REPORTED_KEYS)
      rw [List.take_append_drop, evictUntil_of_le (Nat.not_lt.mp hreached), List.append_nil]
        at happend
      exact happend.symm
    · rw [List.length_take, Nat.le_min, not_and] at hshort
      rw [List.take_of_length_le (Nat.le_of_not_le (hshort le_rfl))]
  · obtain ⟨horder, hheld⟩ : pageOrder held rows = _ ∧ _ := pageOrder_page hpage hover hne
    rw [horder, hheld, List.take_of_length_le (hpage.trans (by decide))]
    exact ⟨rfl, rfl⟩
  · exact preview_eq_first_page hover hne hsuffices

/-- The preview of the size cap. -/
theorem previewSizeCap_eq (h : Works service s) {rows : List ArtifactMeta}
    (hrows : s.table.lruRows service.config.registry = rows) :
    previewSizeCap service cap total s =
      ((evictUntil cap total (presentFirst service.held (rows.take MAX_REPORTED_KEYS))).length,
        let s' := (takeAll .lru (evictUntil cap total (presentFirst service.held
          (rows.take MAX_REPORTED_KEYS))) s).countHeld
            (heldBack service.held cap total (rows.take MAX_REPORTED_KEYS))
        let remaining := total - sizes (evictUntil cap total (presentFirst service.held
          (rows.take MAX_REPORTED_KEYS)))
        if cap < remaining ∧ MAX_REPORTED_KEYS ≤ (rows.take MAX_REPORTED_KEYS).length then
          { s' with
            report := { s'.report with
              incompleteBecause := some (stoppedMessage (evictUntil cap total
                (presentFirst service.held (rows.take MAX_REPORTED_KEYS))).length
                (remaining - cap)) } }
        else s') := by
  unfold previewSizeCap
  dsimp only
  rw [listLru_eq, hrows, evictLruBatch_eq _ total h]

end Cap

section Runs
variable {service : EvictionService} {s s' d₁ d₂ d₃ l₁ l₂ l₃ : Run} {table : ArtifactTable}
  {blobs : List String}

/-- What is left of the table takes its idle rows along. -/
theorem idleCandidates_filter (config : EvictionConfig) (now : DateTime)
    {table table' : ArtifactTable} {p : ArtifactMeta → Bool}
    (h : table'.rows = table.rows.filter p) :
    idleCandidates config now table' = (idleCandidates config now table).map (List.filter p) := by
  have hidle : ∀ idleSince, table'.listIdle config.registry idleSince =
      (table.listIdle config.registry idleSince).filter p := by
    intro idleSince
    have hscope : table'.listArtifacts config.registry =
        (table.listArtifacts config.registry).filter p := by
      unfold ArtifactTable.listArtifacts
      rw [h, List.filter_comm]
    unfold ArtifactTable.listIdle
    rw [hscope, List.filter_comm]
  unfold idleCandidates
  cases config.idleDays with
  | none => rfl
  | some days =>
    rw [Option.bind_some, Option.bind_some, Option.map_map]
    exact congrArg (fun f => (cutoff dayUnit days now).map f) (funext hidle)

theorem works_of_noFaults (hfaults : ∀ i row, service.faults i row = .none) (s : Run) :
    Works service s := fun i row _ => hfaults i row

/-- The first three strategies of a run without failures, and what is behind them. -/
theorem runAll_swept (hfaults : ∀ i row, service.faults i row = .none)
    (httl : ¬ TtlPanics service.config service.now)
    (hidle : ¬ IdlePanics service.config service.now) (dryRun : Bool) (table : ArtifactTable)
    (blobs : List String) :
    ∃ s₁ s₂ s₃, Swept service .ttl (ttlCandidates service.config service.now table)
        (Run.start table blobs dryRun) s₁ ∧
      Swept service .idle (idleCandidates service.config service.now s₁.table) s₁ s₂ ∧
      Swept service .keepLatestN (latestCandidates service.config s₂.table) s₂ s₃ ∧
      ∀ fuel, runAll service fuel dryRun table blobs =
        andThen (runLruSizeCap service fuel)
          (fun s => (.finished, { s with report := s.report.sumUp })) s₃ := by
  have hworks := works_of_noFaults hfaults
  obtain ⟨hfirst, hswept₁⟩ := runTtl_swept service httl (hworks (Run.start table blobs dryRun))
  obtain ⟨hsecond, hswept₂⟩ := runIdle_swept service hidle (hworks
    (runTtl service (Run.start table blobs dryRun)).2)
  obtain ⟨hthird, hswept₃⟩ := runKeepLatestN_swept service (hworks
    (runIdle service (runTtl service (Run.start table blobs dryRun)).2).2)
  refine ⟨_, _, _, hswept₁, hswept₂, hswept₃, fun fuel => ?_⟩
  rw [runAll, andThen_finished hfirst, andThen_finished hsecond, andThen_finished hthird]

/-- The rows that the age and the idle strategy leave to keep-latest-N. -/
theorem mem_left {row : ArtifactMeta} (hlive : s.report.dryRun = false)
    (h₁ : Swept service .ttl (ttlCandidates service.config service.now s.table) s l₁)
    (h₂ : Swept service .idle (idleCandidates service.config service.now l₁.table) l₁ l₂) :
    row ∈ l₂.table.rows ↔ row ∈ s.table.rows ∧
      ¬ Expired service.config service.held service.now s.table row ∧
      ¬ Idle service.config service.held service.now s.table row := by
  rw [h₂.live (h₁.dryRun.trans hlive), h₁.live hlive, List.mem_filter, List.mem_filter,
    Bool.not_eq_true', decide_eq_false_iff_not, Bool.not_eq_true', decide_eq_false_iff_not,
    mem_ttlCandidates, mem_idleCandidates, and_assoc]
  refine and_congr_right fun hrow => and_congr_right fun hexp => not_congr ?_
  refine idle_iff ?_ hrow
  rw [h₁.live hlive, List.mem_filter, Bool.not_eq_true', decide_eq_false_iff_not,
    mem_ttlCandidates]
  exact ⟨hrow, hexp⟩

/-- What the size cap adds to a report below the cap. -/
def capReport (config : EvictionConfig) (report : EvictionReport) : EvictionReport :=
  match config.maxSizeBytes with
  | none => report
  | some _ => report.count 0 .lru

theorem runLruSizeCap_under (hunder : ∀ cap, service.config.maxSizeBytes = some cap →
      s.table.totalSizeBytes service.config.registry ≤ cap) (fuel : ℕ) :
    runLruSizeCap service fuel s =
      (.finished, { s with report := capReport service.config s.report }) := by
  cases hcap : service.config.maxSizeBytes with
  | none =>
    unfold runLruSizeCap capReport
    rw [hcap]
  | some cap =>
    rw [runLruSizeCap_le hcap (hunder cap hcap)]
    unfold capReport counted
    rw [hcap]

theorem capReport_asLive (config : EvictionConfig) (report : EvictionReport) :
    capReport config report.asLive = (capReport config report).asLive := by
  unfold capReport
  cases config.maxSizeBytes with
  | none => rfl
  | some cap => rfl

/-- Over the cap: a complete preview counts what the loop counts. -/
theorem runLruSizeCap_over {cap : ℕ} (hfaults : ∀ i row, service.faults i row = .none)
    (hcap : service.config.maxSizeBytes = some cap)
    (hover : cap < s.table.totalSizeBytes service.config.registry)
    (hrows : s'.table.lruRows service.config.registry = s.table.lruRows service.config.registry)
    (hpages : kept service.held (s.table.lruRows service.config.registry) = [] ∨
      (s.table.lruRows service.config.registry).length ≤ lruPage ∨
        FirstPageSuffices service.held cap (s.table.totalSizeBytes service.config.registry)
          (s.table.lruRows service.config.registry))
    (hdry : s.report.dryRun = true) (hreport : s'.report = s.report.asLive)
    (hcomplete : (runLruSizeCap service 0 s).2.report.incompleteBecause = none) :
    ∃ fuel, (runLruSizeCap service fuel s').1 = .finished ∧
      (runLruSizeCap service fuel s').2.report = (runLruSizeCap service 0 s).2.report.asLive := by
  have hlive : s'.report.dryRun = false := hreport ▸ rfl
  have hworks := works_of_noFaults hfaults
  have htotal : s'.table.totalSizeBytes service.config.registry =
      s.table.totalSizeBytes service.config.registry := by
    rw [totalSizeBytes_eq, totalSizeBytes_eq, hrows]
  refine ⟨(s'.table.lruRows service.config.registry).length + 1, ?_⟩
  have hloop : lruLoop service cap _ _ 0 s' = _ :=
    lruLoop_eq _ (s'.table.totalSizeBytes service.config.registry) 0 (hworks s') hlive rfl
      (Nat.lt_succ_self _)
  have hpreview : runLruSizeCap service 0 s = counted .lru (previewSizeCap service cap
      (s.table.totalSizeBytes service.config.registry) s) := by
    unfold runLruSizeCap
    rw [hcap]
    dsimp only
    rw [if_neg (Nat.not_le.mpr hover), if_pos hdry]
  rw [hpreview, previewSizeCap_eq (hworks s) rfl] at hcomplete ⊢
  dsimp only at hcomplete ⊢
  split at hcomplete
  · exact absurd hcomplete (Option.some_ne_none _)
  · rename_i hstops
    rw [if_neg hstops]
    obtain ⟨hgone, hheld⟩ := preview_eq_pages (totalSizeBytes_eq ..) hover hpages hstops
    rw [hgone, hheld]
    unfold runLruSizeCap
    rw [hcap]
    dsimp only
    rw [if_neg (Nat.not_le.mpr (htotal ▸ hover)), hlive, if_neg Bool.false_ne_true, hloop, hrows,
      htotal]
    refine ⟨rfl, ?_⟩
    dsimp only [counted, Run.countHeld]
    rw [takeAll_report, takeAll_report, hreport, recordAll_asLive, Nat.zero_add, ← count_asLive]
    rfl

end Runs

section Preview
variable (config : EvictionConfig) (held : List String) (now : DateTime) (table : ArtifactTable)

def noFaults : ℕ → ArtifactMeta → Fault := fun _ _ => .none

/-- The same counts and the same reported keys. -/
structure SameCounts (live dry : EvictionReport) : Prop where
  total : live.total = dry.total
  evicted : ∀ strategy, live.evicted strategy = dry.evicted strategy
  held : live.held = dry.held
  keys : ∀ key, key ∈ live.evictedKeys ↔ key ∈ dry.evictedKeys

/-- A preview that ends and does not say it is incomplete is what the live run does. -/
def Agrees (service : EvictionService) (table : ArtifactTable) (blobs : List String) : Prop :=
  (runAll service 0 true table blobs).1 = .finished →
    (runAll service 0 true table blobs).2.report.incompleteBecause = none →
      ∃ fuel, (runAll service fuel false table blobs).1 = .finished ∧
        SameCounts (runAll service fuel false table blobs).2.report
          (runAll service 0 true table blobs).2.report

/-- No strategy takes what a later one counts: no artifact is both expired and idle, no package
with more artifacts than the window has one that is expired or idle, and over the cap no other
strategy takes an artifact of the registry, which has no lost artifact, or one page of
artifacts, or its lost ones on the first page with enough present ones. -/
structure Undisturbed : Prop where
  disjoint : ∀ row, ¬ (Expired config held now table row ∧ Idle config held now table row)
  window : ∀ n, config.keepLatestN = some n → 0 < n → ∀ row,
    Expired config held now table row ∨ Idle config held now table row →
      groupCount row.group table.rows ≤ n
  cap : ∀ cap, config.maxSizeBytes = some cap → cap < table.totalSizeBytes config.registry →
    (∀ row ∈ table.listArtifacts config.registry, ¬ Expired config held now table row ∧
      ¬ Idle config held now table row ∧ ¬ Beyond config held table row) ∧
    (kept held (table.listArtifacts config.registry) = [] ∨
      (table.listArtifacts config.registry).length ≤ lruPage ∨
        FirstPageSuffices held cap (table.totalSizeBytes config.registry)
          (table.lruRows config.registry))

variable {config held now table} {s d₁ d₂ d₃ l₁ l₂ l₃ : Run}

/-- What a preview leaves behind its first three strategies. -/
theorem dry_tables {service : EvictionService} (hdry : s.report.dryRun = true)
    {c₁ c₂ c₃ : Option (List ArtifactMeta)} (h₁ : Swept service .ttl c₁ s d₁)
    (h₂ : Swept service .idle c₂ d₁ d₂) (h₃ : Swept service .keepLatestN c₃ d₂ d₃) :
    (d₁.table = s.table ∧ d₂.table = s.table ∧ d₃.table = s.table) ∧ d₃.blobs = s.blobs ∧
      d₃.report.dryRun = true := by
  have hdry₁ := h₁.dryRun.trans hdry
  have hdry₂ := h₂.dryRun.trans hdry₁
  obtain ⟨htable₁, hblobs₁⟩ := h₁.dry hdry
  obtain ⟨htable₂, hblobs₂⟩ := h₂.dry hdry₁
  obtain ⟨htable₃, hblobs₃⟩ := h₃.dry hdry₂
  exact ⟨⟨htable₁, htable₂.trans htable₁, htable₃.trans (htable₂.trans htable₁)⟩,
    hblobs₃.trans (hblobs₂.trans hblobs₁), h₃.dryRun.trans hdry₂⟩

theorem latestCandidates_eq {table' : ArtifactTable} (hsub : table'.rows.Sublist table.rows)
    (hgroups : ∀ n, config.keepLatestN = some n → 0 < n → ∀ row ∈ table.rows,
      row ∉ table'.rows → groupCount row.group table.rows ≤ n) :
    latestCandidates config table' = latestCandidates config table := by
  unfold latestCandidates
  cases hkeep : config.keepLatestN with
  | none => rfl
  | some n =>
    rw [Option.map_some, Option.map_some]
    split
    · rfl
    · rename_i hn
      rw [beyondWindow_eq hsub (hgroups n hkeep (Nat.pos_of_ne_zero hn))]

theorem sumUp_asLive (report : EvictionReport) : report.asLive.sumUp = report.sumUp.asLive := rfl

theorem sameCounts_asLive (report : EvictionReport) : SameCounts report.asLive report where
  total := rfl
  evicted := fun strategy => by cases strategy <;> rfl
  held := rfl
  keys := fun _ => Iff.rfl

theorem not_panics_of_finished {service : EvictionService} {dryRun : Bool} {blobs : List String}
    (h : (runAll service 0 dryRun table blobs).1 = .finished) :
    ¬ TtlPanics service.config service.now ∧ ¬ IdlePanics service.config service.now := by
  have httl : ¬ TtlPanics service.config service.now := by
    intro hpanics
    rw [runAll, andThen, runTtl_panicked service hpanics] at h
    cases h
  refine ⟨httl, fun hpanics => ?_⟩
  have hfirst : (runTtl service (Run.start table blobs dryRun)).1 = .finished := by
    unfold runTtl
    cases hsecs : service.config.artifactTtlSecs with
    | none => rfl
    | some secs =>
      dsimp only
      cases hcutoff : cutoff secondUnit secs service.now with
      | none => exact absurd ⟨secs, hsecs, hcutoff⟩ httl
      | some olderThan => rfl
  rw [runAll, andThen_finished hfirst, andThen, runIdle_panicked service hpanics] at h
  cases h

/-- Nothing that is idle has expired, so the idle strategy finds the same rows. -/
theorem idleCandidates_left {service : EvictionService} (hlive : s.report.dryRun = false)
    (h₁ : Swept service .ttl (ttlCandidates service.config service.now s.table) s l₁)
    (hdisjoint : ∀ row, ¬ (Expired service.config service.held service.now s.table row ∧
      Idle service.config service.held service.now s.table row)) :
    idleCandidates service.config service.now l₁.table =
      idleCandidates service.config service.now s.table := by
  rw [idleCandidates_filter _ _ (h₁.live hlive)]
  cases hrows : idleCandidates service.config service.now s.table with
  | none => rfl
  | some rows =>
    rw [Option.map_some, Option.some_inj]
    refine List.filter_eq_self.mpr ?_
    intro row hrow
    rw [Bool.not_eq_true', decide_eq_false_iff_not, mem_ttlCandidates]
    intro hexp
    refine hdisjoint row ⟨hexp, mem_idleCandidates.mp ?_⟩
    rw [hrows, Option.getD_some, free, List.mem_filter, hexp.1]
    exact ⟨hrow, rfl⟩

/-- Packages within the window keep all their rows, so keep-latest-N finds the same ones. -/
theorem latestCandidates_left {service : EvictionService} (hlive : s.report.dryRun = false)
    (h₁ : Swept service .ttl (ttlCandidates service.config service.now s.table) s l₁)
    (h₂ : Swept service .idle (idleCandidates service.config service.now l₁.table) l₁ l₂)
    (hwindow : ∀ n, service.config.keepLatestN = some n → 0 < n → ∀ row,
      Expired service.config service.held service.now s.table row ∨
        Idle service.config service.held service.now s.table row →
          groupCount row.group s.table.rows ≤ n) :
    latestCandidates service.config l₂.table = latestCandidates service.config s.table := by
  have hsub : l₂.table.rows.Sublist s.table.rows := by
    rw [h₂.live (h₁.dryRun.trans hlive), h₁.live hlive]
    exact List.filter_sublist.trans List.filter_sublist
  refine latestCandidates_eq hsub ?_
  intro n hkeep hn row hrow hgone
  refine hwindow n hkeep hn row ?_
  by_contra hnamed
  exact hgone ((mem_left hlive h₁ h₂).mpr ⟨hrow, not_or.mp hnamed⟩)

theorem swept_sublist {service : EvictionService} {c₁ c₂ c₃ : Option (List ArtifactMeta)}
    (hlive : s.report.dryRun = false) (h₁ : Swept service .ttl c₁ s l₁)
    (h₂ : Swept service .idle c₂ l₁ l₂) (h₃ : Swept service .keepLatestN c₃ l₂ l₃) :
    l₂.table.rows.Sublist s.table.rows ∧ l₃.table.rows.Sublist s.table.rows := by
  have hlive₁ := h₁.dryRun.trans hlive
  have hlive₂ := h₂.dryRun.trans hlive₁
  rw [h₃.live hlive₂, h₂.live hlive₁, h₁.live hlive]
  exact ⟨List.filter_sublist.trans List.filter_sublist,
    List.filter_sublist.trans (List.filter_sublist.trans List.filter_sublist)⟩

/-- Where no row of the registry is taken, the size cap finds the same rows. -/
theorem lruRows_left {service : EvictionService} (hlive : s.report.dryRun = false)
    (h₁ : Swept service .ttl (ttlCandidates service.config service.now s.table) s l₁)
    (h₂ : Swept service .idle (idleCandidates service.config service.now l₁.table) l₁ l₂)
    (h₃ : Swept service .keepLatestN (latestCandidates service.config l₂.table) l₂ l₃)
    (hlatest : latestCandidates service.config l₂.table = latestCandidates service.config s.table)
    (hnone : ∀ row ∈ s.table.listArtifacts service.config.registry,
      ¬ Expired service.config service.held service.now s.table row ∧
        ¬ Idle service.config service.held service.now s.table row ∧
          ¬ Beyond service.config service.held s.table row) :
    l₃.table.lruRows service.config.registry = s.table.lruRows service.config.registry := by
  have hlive₂ := h₂.dryRun.trans (h₁.dryRun.trans hlive)
  obtain ⟨-, hsub⟩ := swept_sublist hlive h₁ h₂ h₃
  unfold ArtifactTable.lruRows ArtifactTable.listArtifacts
  rw [sublist_eq_filter hsub s.table.keys.of_map, List.filter_comm, List.filter_eq_self.mpr ?_]
  intro row hrow
  obtain ⟨hexp, hidle, hbeyond⟩ := hnone row hrow
  refine decide_eq_true ?_
  rw [h₃.live hlive₂, List.mem_filter, Bool.not_eq_true', decide_eq_false_iff_not, hlatest,
    mem_latestCandidates]
  exact ⟨(mem_left hlive h₁ h₂).mpr ⟨List.mem_of_mem_filter hrow, hexp, hidle⟩, hbeyond⟩

theorem totalSizeBytes_mono {table' : ArtifactTable} (hsub : table'.rows.Sublist table.rows)
    (registry : String) : table'.totalSizeBytes registry ≤ table.totalSizeBytes registry :=
  (((hsub.filter _).filterMap _)).sum_le_sum fun _ _ => Nat.zero_le _

/-- Where nothing is disturbed the live run goes through the preview's reports. -/
theorem agrees_of_undisturbed {service : EvictionService}
    (hfaults : ∀ i row, service.faults i row = .none)
    (h : Undisturbed service.config service.held service.now table) (blobs : List String) :
    Agrees service table blobs := by
  intro hfinished hcomplete
  obtain ⟨httl, hidle⟩ := not_panics_of_finished hfinished
  obtain ⟨d₁, d₂, d₃, hd₁, hd₂, hd₃, hdry⟩ := runAll_swept hfaults httl hidle true table blobs
  obtain ⟨l₁, l₂, l₃, hl₁, hl₂, hl₃, hlive⟩ := runAll_swept hfaults httl hidle false table blobs
  obtain ⟨⟨htable₁, htable₂, htables⟩, -, hdry₃⟩ := dry_tables rfl hd₁ hd₂ hd₃
  have htable₃ : d₃.table = table := htables
  have hidles := idleCandidates_left (s := Run.start table blobs false) rfl hl₁ h.disjoint
  have hlatest :=
    latestCandidates_left (s := Run.start table blobs false) rfl hl₁ hl₂ h.window
  have hreport₁ : l₁.report = d₁.report.asLive := by
    rw [hl₁.report, hd₁.report]
    exact sweepReport_asLive service.held .ttl _ (EvictionReport.new true)
  have hreport₂ : l₂.report = d₂.report.asLive := by
    rw [hl₂.report, hd₂.report, hreport₁, hidles, htable₁]
    exact sweepReport_asLive ..
  have hreport₃ : l₃.report = d₃.report.asLive := by
    rw [hl₃.report, hd₃.report, hreport₂, hlatest, htable₂]
    exact sweepReport_asLive ..
  obtain ⟨-, hsub⟩ := swept_sublist rfl hl₁ hl₂ hl₃
  rw [hdry] at hcomplete ⊢
  suffices hcap : ∃ fuel, (runLruSizeCap service fuel l₃).1 = .finished ∧
      (runLruSizeCap service 0 d₃).1 = .finished ∧
      (runLruSizeCap service fuel l₃).2.report = (runLruSizeCap service 0 d₃).2.report.asLive by
    obtain ⟨fuel, hlivecap, hdrycap, hsame⟩ := hcap
    refine ⟨fuel, ?_⟩
    rw [hlive, andThen_finished hlivecap, andThen_finished hdrycap]
    refine ⟨rfl, ?_⟩
    dsimp only
    rw [hsame, sumUp_asLive]
    exact sameCounts_asLive _
  by_cases hover : ∃ cap, service.config.maxSizeBytes = some cap ∧
      cap < table.totalSizeBytes service.config.registry
  · obtain ⟨cap, hmax, hover⟩ := hover
    obtain ⟨hnone, hpages⟩ := h.cap cap hmax hover
    have hrows : l₃.table.lruRows _ = table.lruRows service.config.registry :=
      lruRows_left (s := Run.start table blobs false) rfl hl₁ hl₂ hl₃ hlatest hnone
    have hperm : (table.lruRows service.config.registry).Perm
        (table.listArtifacts service.config.registry) := List.perm_insertionSort _ _
    have hdryfinished : (runLruSizeCap service 0 d₃).1 = .finished := by
      unfold runLruSizeCap
      rw [hmax]
      dsimp only
      rw [htable₃, hdry₃]
      split
      · rfl
      · rfl
    have hcomplete₃ : (runLruSizeCap service 0 d₃).2.report.incompleteBecause = none := by
      rw [andThen_finished hdryfinished] at hcomplete
      exact hcomplete
    have hpages₃ : kept service.held (d₃.table.lruRows service.config.registry) = [] ∨
        (d₃.table.lruRows service.config.registry).length ≤ lruPage ∨
          FirstPageSuffices service.held cap
            (d₃.table.totalSizeBytes service.config.registry)
            (d₃.table.lruRows service.config.registry) := by
      rw [htable₃]
      refine hpages.imp ?_ (Or.imp_left ?_)
      · intro hkept
        exact List.perm_nil.mp (hkept ▸ hperm.filter _)
      · exact fun hlength => hperm.length_eq.trans_le hlength
    rw [← htable₃] at hover hrows
    obtain ⟨fuel, hfinishedcap, hsame⟩ :=
      runLruSizeCap_over hfaults hmax hover hrows hpages₃ hdry₃ hreport₃ hcomplete₃
    exact ⟨fuel, hfinishedcap, hdryfinished, hsame⟩
  · have hunder : ∀ cap, service.config.maxSizeBytes = some cap →
        table.totalSizeBytes service.config.registry ≤ cap := by
      intro cap hmax
      by_contra hlt
      exact hover ⟨cap, hmax, Nat.not_le.mp hlt⟩
    refine ⟨0, ?_⟩
    rw [runLruSizeCap_under fun cap hmax => (totalSizeBytes_mono hsub _).trans (hunder cap hmax),
      runLruSizeCap_under fun cap hmax => htable₃ ▸ hunder cap hmax]
    refine ⟨rfl, rfl, ?_⟩
    rw [hreport₃, capReport_asLive]

theorem capReport_evicted (config : EvictionConfig) (report : EvictionReport) :
    (capReport config report).sumUp.evicted .idle = report.evicted .idle ∧
      (capReport config report).sumUp.evicted .keepLatestN = report.evicted .keepLatestN ∧
      (capReport config report).sumUp.held = report.held ∧
      (capReport config report).sumUp.incompleteBecause = report.incompleteBecause := by
  unfold capReport
  cases config.maxSizeBytes with
  | none => exact ⟨rfl, rfl, rfl, rfl⟩
  | some cap => exact ⟨rfl, rfl, rfl, rfl⟩

/-- The counts of a run behind its first three strategies. -/
theorem swept_counts {service : EvictionService} {dryRun : Bool} {blobs : List String}
    {c₁ c₂ c₃ : Option (List ArtifactMeta)}
    (h₁ : Swept service .ttl c₁ (Run.start table blobs dryRun) l₁)
    (h₂ : Swept service .idle c₂ l₁ l₂) (h₃ : Swept service .keepLatestN c₃ l₂ l₃) :
    l₃.report.evicted .idle = (free service.held (c₂.getD [])).length ∧
      l₃.report.evicted .keepLatestN = (free service.held (c₃.getD [])).length ∧
      l₃.report.held = (kept service.held (c₁.getD [])).length +
        (kept service.held (c₂.getD [])).length + (kept service.held (c₃.getD [])).length ∧
      l₃.report.incompleteBecause = none := by
  have hfirst : ∀ other, l₁.report.evicted other =
      if other = .ttl then (free service.held (c₁.getD [])).length else 0 := by
    intro other
    rw [h₁.report, sweepReport_evicted service.held .ttl other c₁ rfl]
    cases other <;> rfl
  have hidle₁ : l₁.report.evicted .idle = 0 := hfirst .idle
  have hlatest₁ : l₁.report.evicted .keepLatestN = 0 := hfirst .keepLatestN
  have hlatest₂ : l₂.report.evicted .keepLatestN = 0 := by
    rw [h₂.report, sweepReport_evicted service.held .idle .keepLatestN c₂ hidle₁]
    exact hlatest₁
  have hidle₂ : l₂.report.evicted .idle = (free service.held (c₂.getD [])).length := by
    rw [h₂.report, sweepReport_evicted service.held .idle .idle c₂ hidle₁]
    rfl
  refine ⟨?_, ?_, ?_, ?_⟩
  · rw [h₃.report, sweepReport_evicted service.held .keepLatestN .idle c₃ hlatest₂]
    exact hidle₂
  · rw [h₃.report, sweepReport_evicted service.held .keepLatestN .keepLatestN c₃ hlatest₂]
    rfl
  · rw [h₃.report, sweepReport_held, h₂.report, sweepReport_held, h₁.report, sweepReport_held]
    exact congrArg (· + _ + _) (Nat.zero_add _)
  · rw [h₃.report, sweepReport_incomplete, h₂.report, sweepReport_incomplete, h₁.report,
      sweepReport_incomplete]
    rfl

theorem length_free_add_kept (held : List String) (rows : List ArtifactMeta) :
    (free held rows).length + (kept held rows).length = rows.length := by
  rw [Nat.add_comm, ← List.length_append]
  exact (List.filter_append_perm (isHeld held) rows).length_eq

/-- Below the cap, equal counts mean that nothing was disturbed. -/
theorem undisturbed_of_agrees {service : EvictionService}
    (hfaults : ∀ i row, service.faults i row = .none) (blobs : List String)
    (hunder : ∀ cap, service.config.maxSizeBytes = some cap →
      table.totalSizeBytes service.config.registry ≤ cap)
    (httl : ¬ TtlPanics service.config service.now)
    (hidle : ¬ IdlePanics service.config service.now) (h : Agrees service table blobs) :
    Undisturbed service.config service.held service.now table := by
  obtain ⟨d₁, d₂, d₃, hd₁, hd₂, hd₃, hdry⟩ := runAll_swept hfaults httl hidle true table blobs
  obtain ⟨l₁, l₂, l₃, hl₁, hl₂, hl₃, hlive⟩ := runAll_swept hfaults httl hidle false table blobs
  obtain ⟨⟨htable₁, htable₂, htables⟩, -, -⟩ := dry_tables rfl hd₁ hd₂ hd₃
  have htable₃ : d₃.table = table := htables
  obtain ⟨hsub₂, hsub⟩ := swept_sublist rfl hl₁ hl₂ hl₃
  obtain ⟨hidled, hlatestd, hheldd, hcompleted⟩ := swept_counts hd₁ hd₂ hd₃
  obtain ⟨hidlel, hlatestl, hheldl, -⟩ := swept_counts hl₁ hl₂ hl₃
  have hcapd : runLruSizeCap service 0 d₃ = _ :=
    runLruSizeCap_under (fun cap hmax => htable₃ ▸ hunder cap hmax) 0
  have hcapl : ∀ fuel, runLruSizeCap service fuel l₃ = _ :=
    runLruSizeCap_under fun cap hmax => (totalSizeBytes_mono hsub _).trans (hunder cap hmax)
  unfold Agrees at h
  simp only [hdry, hlive, andThen, hcapd, hcapl] at h
  obtain ⟨fuel, -, hsame⟩ := h trivial ((capReport_evicted _ _).2.2.2.trans hcompleted)
  have hidles := hsame.evicted .idle
  have hlatests := hsame.evicted .keepLatestN
  have hhelds := hsame.held
  rw [(capReport_evicted _ _).1, (capReport_evicted _ _).1, hidlel, hidled, htable₁] at hidles
  rw [(capReport_evicted _ _).2.1, (capReport_evicted _ _).2.1, hlatestl, hlatestd, htable₂]
    at hlatests
  rw [(capReport_evicted _ _).2.2.1, (capReport_evicted _ _).2.2.1, hheldl, hheldd, htable₁,
    htable₂] at hhelds
  have hdisjoint : ∀ row, ¬ (Expired service.config service.held service.now table row ∧
      Idle service.config service.held service.now table row) := by
    rintro row ⟨hexp, hid⟩
    rw [idleCandidates_filter _ _ (hl₁.live rfl)] at hidles
    refine absurd hidles (Nat.ne_of_lt ?_)
    have hcomm : free service.held (((idleCandidates service.config service.now table).map
          (List.filter fun row => !decide (row ∈ free service.held
            ((ttlCandidates service.config service.now table).getD [])))).getD []) =
        (free service.held ((idleCandidates service.config service.now table).getD [])).filter
          fun row => !decide (row ∈ free service.held
            ((ttlCandidates service.config service.now table).getD [])) := by
      cases idleCandidates service.config service.now table with
      | none => rfl
      | some rows => exact List.filter_comm ..
    refine lt_of_eq_of_lt (congrArg List.length hcomm) ?_
    refine List.length_filter_lt_length_iff_exists.mpr ⟨row, mem_idleCandidates.mpr hid, ?_⟩
    rw [Bool.not_eq_true', decide_eq_false_iff_not, not_not]
    exact mem_ttlCandidates.mpr hexp
  have hsameidle := idleCandidates_left (s := Run.start table blobs false) rfl hl₁ hdisjoint
  rw [hsameidle] at hhelds
  refine ⟨hdisjoint, ?_, fun cap hmax hover => absurd (hunder cap hmax) (Nat.not_le.mpr hover)⟩
  intro n hkeep hpos row hnamed
  by_contra hlarge
  have hrow : row ∈ table.rows := hnamed.elim (fun hexp => hexp.mem.1) fun hid => hid.mem.1
  have hgone : row ∉ l₂.table.rows := by
    intro hmem
    obtain ⟨-, hexp, hid⟩ := (mem_left (s := Run.start table blobs false) rfl hl₁ hl₂).mp hmem
    exact hnamed.elim hexp hid
  have hless := beyondWindow_lt hsub₂ hrow hgone (Nat.not_le.mp hlarge)
  have hlistl := length_free_add_kept service.held
    ((latestCandidates service.config l₂.table).getD [])
  have hlistd := length_free_add_kept service.held
    ((latestCandidates service.config table).getD [])
  have hcandidates : ∀ t : ArtifactTable, (latestCandidates service.config t).getD [] =
      beyondWindow n none 0 t.listArtifactsByPackage := by
    intro t
    unfold latestCandidates
    rw [hkeep, Option.map_some, Option.getD_some, if_neg (Nat.ne_of_gt hpos)]
  rw [← hcandidates, ← hcandidates] at hless
  dsimp only [Run.start] at hless hhelds hlatests
  omega

/-- The size cap of a dry run. -/
theorem runLruSizeCap_dry {service : EvictionService}
    (hfaults : ∀ i row, service.faults i row = .none) (hdry : s.report.dryRun = true) :
    (runLruSizeCap service 0 s).1 = .finished ∧
      (runLruSizeCap service 0 s).2.table = s.table ∧
      (runLruSizeCap service 0 s).2.blobs = s.blobs := by
  unfold runLruSizeCap
  cases service.config.maxSizeBytes with
  | none => exact ⟨rfl, rfl, rfl⟩
  | some cap =>
    dsimp only
    split
    · exact ⟨rfl, rfl, rfl⟩
    · rw [previewSizeCap_eq (works_of_noFaults hfaults s) rfl]
      dsimp only [counted]
      split
      · exact ⟨rfl, takeAll_dry hdry ..⟩
      · exact ⟨rfl, takeAll_dry hdry ..⟩

/-- A dry run changes neither store. -/
theorem dry_stores {service : EvictionService} (hfaults : ∀ i row, service.faults i row = .none)
    (table : ArtifactTable) (blobs : List String) :
    (runAll service 0 true table blobs).2.table = table ∧
      (runAll service 0 true table blobs).2.blobs = blobs := by
  by_cases httl : TtlPanics service.config service.now
  · rw [runAll, andThen, runTtl_panicked service httl]
    exact ⟨rfl, rfl⟩
  · by_cases hidle : IdlePanics service.config service.now
    · obtain ⟨hfirst, hswept⟩ := runTtl_swept service httl
        (works_of_noFaults hfaults (Run.start table blobs true))
      rw [runAll, andThen_finished hfirst, andThen, runIdle_panicked service hidle]
      exact hswept.dry rfl
    · obtain ⟨d₁, d₂, d₃, hd₁, hd₂, hd₃, hdry⟩ :=
        runAll_swept hfaults httl hidle true table blobs
      obtain ⟨⟨-, -, htable⟩, hblobs, hdry₃⟩ := dry_tables rfl hd₁ hd₂ hd₃
      obtain ⟨hfinished, htable', hblobs'⟩ := runLruSizeCap_dry hfaults hdry₃
      rw [hdry, andThen_finished hfinished]
      exact ⟨htable'.trans htable, hblobs'.trans hblobs⟩

/-- A preview changes nothing. It counts what the live run does where no strategy takes what
another counts, and below the cap only there. -/
theorem preview_agrees_iff (config : EvictionConfig) (held : List String) (now : DateTime)
    (table : ArtifactTable) (blobs : List String) :
    ((runAll ⟨config, held, now, noFaults⟩ 0 true table blobs).2.table = table ∧
      (runAll ⟨config, held, now, noFaults⟩ 0 true table blobs).2.blobs = blobs) ∧
    ((¬ TtlPanics config now ∧ ¬ IdlePanics config now → Undisturbed config held now table) →
      Agrees ⟨config, held, now, noFaults⟩ table blobs) ∧
    ((∀ cap, config.maxSizeBytes = some cap → table.totalSizeBytes config.registry ≤ cap) →
      Agrees ⟨config, held, now, noFaults⟩ table blobs →
        ¬ TtlPanics config now ∧ ¬ IdlePanics config now → Undisturbed config held now table) := by
  have hfaults : ∀ i row, (EvictionService.mk config held now noFaults).faults i row = .none :=
    fun _ _ => rfl
  refine ⟨dry_stores hfaults table blobs, ?_, ?_⟩
  · intro h hfinished
    exact agrees_of_undisturbed hfaults (h (not_panics_of_finished hfinished)) blobs hfinished
  · rintro hunder hagrees ⟨httl, hidle⟩
    exact undisturbed_of_agrees hfaults blobs hunder httl hidle hagrees

end Preview

section Samples

/-- Cached and last accessed long ago. -/
def oldArtifact : ArtifactTable where
  rows := [⟨"r/pkg/1", "r", "pkg", "1", some 1, 0, 0⟩]
  keys := by decide
  instants := by decide

def ttlAndIdle : EvictionConfig := ⟨some 60, some 1, none, none, "r"⟩

def dayThree : DateTime := 3 * 86400 * 10 ^ 9

/-- The one artifact is counted twice by the preview and deleted once. -/
theorem preview_counts_twice :
    (runAll ⟨ttlAndIdle, [], dayThree, noFaults⟩ 0 true oldArtifact []).1 = .finished ∧
    (runAll ⟨ttlAndIdle, [], dayThree, noFaults⟩ 0 true oldArtifact []).2.report.incompleteBecause =
      none ∧
    (runAll ⟨ttlAndIdle, [], dayThree, noFaults⟩ 0 true oldArtifact []).2.report.total = 2 ∧
    ∀ fuel, (runAll ⟨ttlAndIdle, [], dayThree, noFaults⟩ fuel false oldArtifact []).2.report.total =
      1 := by
  refine ⟨by decide, by decide, by decide, ?_⟩
  intro fuel
  rfl

end Samples

end BatleHub.Eviction
