import BatleHub.Eviction

/-!
What an eviction run over one registry takes. The age and idle strategies read the table of
the registry, keep-latest-N reads the whole table and counts artifacts from the last cached
on. A row only moves up when others are taken out before it.
-/
namespace BatleHub.Eviction

open LocalPackages (DateTime)
open Lib.StableSort

section Positions

instance total_packageOrder : Std.Total ArtifactTable.packageOrder where
  total a b := by
    unfold ArtifactTable.packageOrder
    rcases lt_trichotomy a.registry b.registry with hreg | hreg | hreg
    · exact .inl (.inl hreg)
    · rcases lt_trichotomy a.packageName b.packageName with hname | hname | hname
      · exact .inl (.inr ⟨hreg, .inl hname⟩)
      · rcases le_total b.cachedAt a.cachedAt with hat | hat
        · exact .inl (.inr ⟨hreg, .inr ⟨hname, hat⟩⟩)
        · exact .inr (.inr ⟨hreg.symm, .inr ⟨hname.symm, hat⟩⟩)
      · exact .inr (.inr ⟨hreg.symm, .inl hname⟩)
    · exact .inr (.inl hreg)

instance trans_packageOrder : IsTrans ArtifactMeta ArtifactTable.packageOrder where
  trans a b c := by
    rintro (hreg | ⟨hreg, hab⟩) (hreg' | ⟨hreg', hbc⟩)
    · exact .inl (hreg.trans hreg')
    · exact .inl (hreg' ▸ hreg)
    · exact .inl (hreg ▸ hreg')
    · refine .inr ⟨hreg.trans hreg', ?_⟩
      rcases hab with hname | ⟨hname, hat⟩
      · rcases hbc with hname' | ⟨hname', -⟩
        · exact .inl (hname.trans hname')
        · exact .inl (hname' ▸ hname)
      · rcases hbc with hname' | ⟨hname', hat'⟩
        · exact .inl (hname ▸ hname')
        · exact .inr ⟨hname.trans hname', le_trans hat' hat⟩

variable {a b c row : ArtifactMeta}

/-- The order of the package, without the instants. -/
theorem le_of_packageOrder (h : ArtifactTable.packageOrder a b) :
    a.registry ≤ b.registry ∧ (a.registry = b.registry → a.packageName ≤ b.packageName) := by
  rcases h with hreg | ⟨hreg, hname⟩
  · exact ⟨le_of_lt hreg, fun heq => absurd heq (ne_of_lt hreg)⟩
  · refine ⟨le_of_eq hreg, fun _ => ?_⟩
    rcases hname with hlt | ⟨heq, -⟩
    · exact le_of_lt hlt
    · exact le_of_eq heq

/-- What stands between two rows of one package is of that package. -/
theorem group_between (hab : ArtifactTable.packageOrder a b)
    (hbc : ArtifactTable.packageOrder b c) (h : a.group = c.group) : b.group = c.group := by
  have hreg : a.registry = c.registry := congrArg Prod.fst h
  have hname : a.packageName = c.packageName := congrArg Prod.snd h
  obtain ⟨hregab, hnameab⟩ := le_of_packageOrder hab
  obtain ⟨hregbc, hnamebc⟩ := le_of_packageOrder hbc
  have hregb : b.registry = c.registry := le_antisymm hregbc (hreg ▸ hregab)
  have hnameb : b.packageName = c.packageName :=
    le_antisymm (hnamebc hregb) (hname ▸ hnameab (hreg.trans hregb.symm))
  exact Prod.ext hregb hnameb

def groupCount (group : String × String) (rows : List ArtifactMeta) : ℕ :=
  (rows.filter fun row => decide (row.group = group)).length

theorem groupCount_append (group : String × String) (rows rows' : List ArtifactMeta) :
    groupCount group (rows ++ rows') = groupCount group rows + groupCount group rows' := by
  rw [groupCount, List.filter_append, List.length_append]
  rfl

/-- How many artifacts of its package stand before a row, the last cached first. -/
def ArtifactTable.position (table : ArtifactTable) (row : ArtifactMeta) : ℕ :=
  groupCount row.group (table.listArtifactsByPackage.takeWhile fun r => !decide (r = row))

/-- Where the walk over the sorted rows stands behind those it has seen. -/
def Standing (seen : List ArtifactMeta) (current : Option (String × String)) (pos : ℕ) : Prop :=
  current = seen.getLast?.map ArtifactMeta.group ∧
    ∀ group, current = some group → pos = groupCount group seen

/-- The next position is the number of rows of the package so far. -/
theorem standing_next {seen rest : List ArtifactMeta} {current : Option (String × String)}
    {pos : ℕ} (hsorted : (seen ++ row :: rest).Pairwise ArtifactTable.packageOrder)
    (hstand : Standing seen current pos) :
    (if current = some row.group then pos + 1 else 1) = groupCount row.group seen + 1 := by
  split
  · rename_i hcurrent
    rw [hstand.2 _ hcurrent]
  · rename_i hother
    have hnone : groupCount row.group seen = 0 := by
      rw [groupCount, List.length_eq_zero_iff, List.filter_eq_nil_iff]
      intro a ha
      rw [decide_eq_true_eq]
      intro hgroup
      obtain ⟨front, last, hseen⟩ : ∃ front last, seen = front ++ [last] :=
        ⟨_, _, (List.dropLast_append_getLast (List.ne_nil_of_mem ha)).symm⟩
      refine hother ?_
      rw [hstand.1, hseen, List.getLast?_concat, Option.map_some, Option.some_inj]
      rw [hseen, List.append_assoc, List.singleton_append] at hsorted
      have hpairs := List.pairwise_append.mp hsorted
      have hlast : ArtifactTable.packageOrder last row :=
        (List.pairwise_cons.mp hpairs.2.1).1 row List.mem_cons_self
      rw [hseen] at ha
      rcases List.mem_append.mp ha with hfront | hsingle
      · exact group_between (hpairs.2.2 a hfront last List.mem_cons_self) hlast hgroup
      · exact List.mem_singleton.mp hsingle ▸ hgroup
    rw [hnone]

/-- The walk leaves out the first `n` rows of each package. -/
theorem mem_beyondWindow_append {n : ℕ} {rows : List ArtifactMeta} (seen : List ArtifactMeta)
    {current : Option (String × String)} {pos : ℕ}
    (hsorted : (seen ++ rows).Pairwise ArtifactTable.packageOrder)
    (hstand : Standing seen current pos) :
    row ∈ beyondWindow n current pos rows ↔ ∃ before after, rows = before ++ row :: after ∧
      n ≤ groupCount row.group (seen ++ before) := by
  induction rows generalizing seen current pos with
  | nil =>
    refine iff_of_false List.not_mem_nil ?_
    rintro ⟨before, after, hnil, -⟩
    exact List.append_ne_nil_of_right_ne_nil before (List.cons_ne_nil row after) hnil.symm
  | cons r rows ih =>
    have hpos := standing_next hsorted hstand
    have hself : groupCount r.group [r] = 1 := by simp [groupCount]
    have hstand' : Standing (seen ++ [r]) (some r.group) (groupCount r.group seen + 1) := by
      refine ⟨by rw [List.getLast?_concat, Option.map_some], ?_⟩
      rintro group hgroup
      cases hgroup
      rw [groupCount_append, hself]
    have hsorted' : (seen ++ [r] ++ rows).Pairwise ArtifactTable.packageOrder := by
      rwa [List.append_assoc, List.singleton_append]
    have hrest := ih (seen ++ [r]) hsorted' hstand'
    have hsplit : (∃ before after, r :: rows = before ++ row :: after ∧
          n ≤ groupCount row.group (seen ++ before)) ↔
        (row = r ∧ n ≤ groupCount r.group seen) ∨
          ∃ before after, rows = before ++ row :: after ∧
            n ≤ groupCount row.group (seen ++ [r] ++ before) := by
      constructor
      · rintro ⟨before, after, heq, hn⟩
        cases before with
        | nil =>
          obtain ⟨rfl, -⟩ := List.cons_eq_cons.mp heq
          exact .inl ⟨rfl, by rwa [List.append_nil] at hn⟩
        | cons r' before =>
          rw [List.cons_append] at heq
          obtain ⟨rfl, heq'⟩ := List.cons_eq_cons.mp heq
          refine .inr ⟨before, after, heq', ?_⟩
          rwa [List.append_assoc, List.singleton_append]
      · rintro (⟨rfl, hn⟩ | ⟨before, after, rfl, hn⟩)
        · exact ⟨[], rows, rfl, by rwa [List.append_nil]⟩
        · refine ⟨r :: before, after, rfl, ?_⟩
          rwa [List.append_assoc, List.singleton_append] at hn
    rw [hsplit, ← hrest]
    rw [beyondWindow, hpos]
    split
    · rename_i hin
      refine (or_iff_right ?_).symm
      rintro ⟨-, hn⟩
      exact absurd hin (Nat.not_le.mpr (Nat.lt_succ_of_le hn))
    · rename_i hout
      rw [List.mem_cons]
      exact or_congr_left (iff_self_and.mpr fun _ => Nat.le_of_lt_succ (Nat.not_le.mp hout))

theorem position_of_split {table : ArtifactTable} {before after : List ArtifactMeta}
    (h : table.listArtifactsByPackage = before ++ row :: after) :
    table.position row = groupCount row.group before := by
  have hnodup : table.listArtifactsByPackage.Nodup :=
    (List.perm_insertionSort _ _).nodup_iff.mpr table.keys.of_map
  rw [h] at hnodup
  have hbefore : ∀ r ∈ before, (!decide (r = row)) = true := by
    intro r hr
    rw [Bool.not_eq_true', decide_eq_false_iff_not]
    exact (List.nodup_append.mp hnodup).2.2 r hr row List.mem_cons_self
  rw [ArtifactTable.position, h, List.takeWhile_append_of_pos hbefore,
    List.takeWhile_cons_of_neg (by simp), List.append_nil]

theorem mem_beyondWindow {n : ℕ} {table : ArtifactTable} :
    row ∈ beyondWindow n none 0 table.listArtifactsByPackage ↔
      row ∈ table.rows ∧ n ≤ table.position row := by
  have hsorted : table.listArtifactsByPackage.Pairwise ArtifactTable.packageOrder :=
    List.pairwise_insertionSort _ _
  have hwalk : row ∈ beyondWindow n none 0 table.listArtifactsByPackage ↔ _ :=
    mem_beyondWindow_append [] hsorted ⟨rfl, fun _ h => absurd h.symm (Option.some_ne_none _)⟩
  rw [hwalk]
  constructor
  · rintro ⟨before, after, heq, hn⟩
    have hmem : row ∈ table.listArtifactsByPackage :=
      heq ▸ List.mem_append_right _ List.mem_cons_self
    exact ⟨(List.mem_insertionSort _).mp hmem, (position_of_split heq).symm ▸ hn⟩
  · rintro ⟨hrow, hn⟩
    obtain ⟨before, after, heq⟩ := List.append_of_mem
      ((List.mem_insertionSort ArtifactTable.packageOrder).mpr hrow)
    exact ⟨before, after, heq, position_of_split heq ▸ hn⟩

theorem sublist_eq_filter {α : Type*} [DecidableEq α] {l l' : List α} (h : l'.Sublist l)
    (hnodup : l.Nodup) : l' = l.filter fun a => decide (a ∈ l') := by
  have hall : l'.filter (fun a => decide (a ∈ l')) = l' :=
    List.filter_eq_self.mpr fun a ha => decide_eq_true ha
  have hsub : l'.Sublist (l.filter fun a => decide (a ∈ l')) := by
    have hfilter := h.filter fun a => decide (a ∈ l')
    rwa [hall] at hfilter
  have hsubset : l.filter (fun a => decide (a ∈ l')) ⊆ l' :=
    fun a ha => of_decide_eq_true (List.mem_filter.mp ha).2
  exact hsub.eq_of_length_le (List.subperm_of_subset (hnodup.filter _) hsubset).length_le

variable {table table' : ArtifactTable}

/-- The rows of a smaller table in the order of the larger one. -/
theorem listArtifactsByPackage_sublist (hsub : table'.rows.Sublist table.rows) :
    table'.listArtifactsByPackage =
      table.listArtifactsByPackage.filter fun row => decide (row ∈ table'.rows) := by
  unfold ArtifactTable.listArtifactsByPackage
  rw [← filter_insertionSort, ← sublist_eq_filter hsub table.keys.of_map]

theorem split_of_mem (hrow : row ∈ table.rows) :
    ∃ before after, table.listArtifactsByPackage = before ++ row :: after :=
  List.append_of_mem ((List.mem_insertionSort ArtifactTable.packageOrder).mpr hrow)

theorem position_of_sublist (hsub : table'.rows.Sublist table.rows) (hrow : row ∈ table'.rows)
    {before after : List ArtifactMeta}
    (h : table.listArtifactsByPackage = before ++ row :: after) :
    table'.position row =
      groupCount row.group (before.filter fun r => decide (r ∈ table'.rows)) := by
  have hsplit : table'.listArtifactsByPackage =
      (before.filter fun r => decide (r ∈ table'.rows)) ++
        row :: after.filter fun r => decide (r ∈ table'.rows) := by
    rw [listArtifactsByPackage_sublist hsub, h, List.filter_append,
      List.filter_cons_of_pos (by simpa using hrow)]
  exact position_of_split hsplit

/-- Rows that go only make those behind them move up. -/
theorem position_mono (hsub : table'.rows.Sublist table.rows) (hrow : row ∈ table'.rows) :
    table'.position row ≤ table.position row := by
  obtain ⟨before, after, hsplit⟩ := split_of_mem (hsub.subset hrow)
  rw [position_of_split hsplit, position_of_sublist hsub hrow hsplit]
  exact (List.filter_sublist.filter _).length_le

end Positions

section Policy
variable (config : EvictionConfig) (held : List String) (now : DateTime) (table : ArtifactTable)

/-- The versions of a row's package, other than its own, that were cached at or after each of
its version's artifacts. -/
def newerVersions (row : ArtifactMeta) : List String :=
  ((table.rows.filter fun r => decide (r.group = row.group ∧ r.version ≠ row.version ∧
    ∀ own ∈ table.rows, own.group = row.group → own.version = row.version →
      own.cachedAt ≤ r.cachedAt)).map ArtifactMeta.version).dedup

/-- A row of one of the `n` most recently cached versions of its package. -/
def AmongLatest (n : ℕ) (row : ArtifactMeta) : Prop := (newerVersions table row).length < n

instance decidableAmongLatest (n : ℕ) (row : ArtifactMeta) : Decidable (AmongLatest table n row) :=
  inferInstanceAs (Decidable ((newerVersions table row).length < n))

def TtlPanics : Prop :=
  ∃ secs, config.artifactTtlSecs = some secs ∧ cutoff secondUnit secs now = none

def IdlePanics : Prop := ∃ days, config.idleDays = some days ∧ cutoff dayUnit days now = none

/-- What the age strategy names. -/
def Expired (row : ArtifactMeta) : Prop :=
  isHeld held row = false ∧ ∃ secs olderThan, config.artifactTtlSecs = some secs ∧
    cutoff secondUnit secs now = some olderThan ∧
    row ∈ table.listExpiredByTtl config.registry olderThan

/-- What the idle strategy names. -/
def Idle (row : ArtifactMeta) : Prop :=
  isHeld held row = false ∧ ∃ days idleSince, config.idleDays = some days ∧
    cutoff dayUnit days now = some idleSince ∧ row ∈ table.listIdle config.registry idleSince

/-- What keep-latest-N names. -/
def Beyond (row : ArtifactMeta) : Prop :=
  isHeld held row = false ∧ ∃ n, config.keepLatestN = some n ∧ 0 < n ∧
    row ∈ beyondWindow n none 0 table.listArtifactsByPackage

/-- The deletes of a run are those its policy names: artifacts of the registry; none of the
most recently cached versions by keep-latest-N, unless another strategy of the run names it;
by age and by idleness only what is past the window. -/
structure TakesNamed (s : Run) : Prop where
  scope : ∀ e ∈ s.log, e.deleted = true → e.row.registry = config.registry
  latest : ∀ n, config.keepLatestN = some n → ∀ e ∈ s.log, e.deleted = true →
    e.strategy = .keepLatestN → AmongLatest table n e.row →
      ∃ e' ∈ s.log, e'.strategy ≠ .keepLatestN ∧ e'.row = e.row
  expired : ∀ secs, config.artifactTtlSecs = some secs → ∀ e ∈ s.log, e.deleted = true →
    e.strategy = .ttl → e.row.cachedAt < now - secondUnit * secs * 10 ^ 9
  idle : ∀ days, config.idleDays = some days → ∀ e ∈ s.log, e.deleted = true →
    e.strategy = .idle → e.row.lastAccessedAt < now - dayUnit * days * 10 ^ 9

/-- Windows that do not fit an `i64` take nothing, and every artifact behind the first `n` of
its package is of the registry and not of one of the `n` latest versions, unless the age or
idle strategy names it or upstream has lost it. -/
structure Scoped : Prop where
  ttl : ∀ secs, config.artifactTtlSecs = some secs → 2 ^ 63 ≤ secs → ∀ row ∈ table.rows,
    ¬ Expired config held now table row
  idle : ¬ TtlPanics config now → ∀ days, config.idleDays = some days → 2 ^ 63 ≤ days →
    ∀ row ∈ table.rows, ¬ Idle config held now table row
  latest : ¬ TtlPanics config now → ¬ IdlePanics config now → ∀ n, config.keepLatestN = some n →
    0 < n → ∀ row ∈ table.rows, isHeld held row = false → n ≤ table.position row →
      row.registry = config.registry ∧ (AmongLatest table n row →
        Expired config held now table row ∨ Idle config held now table row)

end Policy

section Sweeps
variable {service : EvictionService} {strategy : Strategy} {rows rows' : ArtifactMeta → Prop}
  {s s' s'' : Run}

/-- A part of a live run that drops the rows of one kind, each of them: what becomes of the
rows, the log and the table. -/
structure Sweeps (service : EvictionService) (strategy : Strategy) (rows : ArtifactMeta → Prop)
    (s s' : Run) : Prop extends Extends strategy rows s s' where
  names : ∀ row, rows row → ∃ e ∈ s'.log, e.strategy = strategy ∧ e.row = row
  deleted : (∀ i row, service.faults i row ≠ .storage) → ∀ e ∈ s'.log,
    e ∈ s.log ∨ e.deleted = true
  unchanged : (∀ row, rows row → ∀ i, service.faults i row = .metadata) → s'.table = s.table
  gone : ∀ row, rows row → (∀ i, service.faults i row = .none) → row ∉ s'.table.rows

theorem Extends.log_subset (h : Extends strategy rows s s') {e : Entry} (he : e ∈ s.log) :
    e ∈ s'.log := by
  obtain ⟨entries, hlog, -⟩ := h.log
  exact hlog ▸ List.mem_append_left _ he

theorem Extends.mem_log (h : Extends strategy rows s s') {e : Entry} (he : e ∈ s'.log) :
    e ∈ s.log ∨ e.strategy = strategy ∧ rows e.row := by
  obtain ⟨entries, hlog, hall⟩ := h.log
  rw [hlog] at he
  exact (List.mem_append.mp he).imp_right (hall e)

theorem Sweeps.none (service : EvictionService) (strategy : Strategy) (s : Run)
    (h : ∀ row, ¬ rows row) : Sweeps service strategy rows s s where
  toExtends := Extends.refl ..
  names := fun row hrow => absurd hrow (h row)
  deleted := fun _ _ he => .inl he
  unchanged := fun _ => rfl
  gone := fun row hrow => absurd hrow (h row)

theorem Sweeps.congr (h : Sweeps service strategy rows s s') (hrows : ∀ row, rows row ↔ rows' row) :
    Sweeps service strategy rows' s s' := by
  have heq : rows = rows' := funext fun row => propext (hrows row)
  exact heq ▸ h

/-- The counts of the report do not matter. -/
theorem Sweeps.counted {result : ℕ × Run} (h : Sweeps service strategy rows s result.2) :
    Sweeps service strategy rows s (counted strategy result).2 where
  toExtends := counted_extends h.toExtends
  names := h.names
  deleted := h.deleted
  unchanged := h.unchanged
  gone := h.gone

/-- One drop of a live run. -/
theorem dropArtifact_sweeps (row : ArtifactMeta) (strategy : Strategy)
    (hlive : s.report.dryRun = false) :
    Sweeps service strategy (· = row) s (dropArtifact service row strategy s).2 := by
  have hext := dropArtifact_extends service row strategy s
  obtain ⟨deleted, hlog, hcase⟩ := dropArtifact_live service row strategy hlive
  refine ⟨hext, ?_, ?_, ?_, ?_⟩
  · rintro r rfl
    exact ⟨_, hlog ▸ List.mem_append_right _ List.mem_cons_self, rfl, rfl⟩
  · intro hfaults e he
    rw [hlog, List.mem_append, List.mem_singleton] at he
    refine he.imp_right ?_
    rintro rfl
    rcases hcase with ⟨-, hfault, -⟩ | ⟨hdeleted, -⟩ | ⟨hdeleted, -⟩
    · exact absurd hfault (hfaults _ _)
    · exact hdeleted
    · exact hdeleted
  · intro hfaults
    rcases hcase with ⟨-, -, -, htable⟩ | ⟨-, -, -, htable⟩ | ⟨-, hfault, -⟩
    · exact htable
    · exact htable
    · exact absurd ((hfaults row rfl _).symm.trans hfault) (by decide)
  · rintro r rfl hfaults
    rcases hcase with ⟨-, hfault, -⟩ | ⟨-, hfault, -⟩ | ⟨-, -, -, htable⟩
    · exact absurd ((hfaults _).symm.trans hfault) (by decide)
    · exact absurd ((hfaults _).symm.trans hfault) (by decide)
    · rw [htable]
      intro hmem
      simpa using (List.mem_filter.mp hmem).2

/-- Two sweeps by one strategy, one after the other. -/
theorem Sweeps.trans (h : Sweeps service strategy rows s s')
    (h' : Sweeps service strategy rows' s' s'') :
    Sweeps service strategy (fun row => rows row ∨ rows' row) s s'' where
  toExtends := (h.toExtends.imp fun _ => .inl).trans (h'.toExtends.imp fun _ => .inr)
  names := by
    rintro row (hrow | hrow)
    · obtain ⟨e, he, hentry⟩ := h.names row hrow
      exact ⟨e, h'.toExtends.log_subset he, hentry⟩
    · exact h'.names row hrow
  deleted := by
    intro hfaults e he
    rcases h'.deleted hfaults e he with hmem | hdeleted
    · exact h.deleted hfaults e hmem
    · exact .inr hdeleted
  unchanged := fun hfaults => (h'.unchanged fun row hrow => hfaults row (.inr hrow)).trans
    (h.unchanged fun row hrow => hfaults row (.inl hrow))
  gone := by
    rintro row (hrow | hrow) hfaults
    · exact fun hmem => h.gone row hrow hfaults (h'.toExtends.table.subset hmem)
    · exact h'.gone row hrow hfaults

theorem dropEach_sweeps (strategy : Strategy) (candidates : List ArtifactMeta) (count : ℕ)
    {s : Run} (hlive : s.report.dryRun = false) :
    Sweeps service strategy (fun row => isHeld service.held row = false ∧ row ∈ candidates) s
      (dropEach service strategy candidates count s).2 := by
  induction candidates generalizing count s with
  | nil => exact Sweeps.none _ _ _ fun row hrow => absurd hrow.2 List.not_mem_nil
  | cons r candidates ih =>
    unfold dropEach
    split
    · rename_i hheld
      have hrest := ih count (s := s.countHeld 1) hlive
      have hsame : Sweeps service strategy (fun _ => False) s (s.countHeld 1) := by
        refine ⟨(Extends.refl ..).of_report rfl, ?_, fun _ _ he => .inl he, fun _ => rfl, ?_⟩
        · exact fun _ hfalse => hfalse.elim
        · exact fun _ hfalse => hfalse.elim
      refine (hsame.trans hrest).congr ?_
      intro row
      rw [List.mem_cons, false_or]
      refine and_congr_right fun hfree => (or_iff_right ?_).symm
      rintro rfl
      exact absurd hheld (by rw [hfree]; exact Bool.false_ne_true)
    · rename_i hfree
      have hdrop : Sweeps service strategy (· = r) s _ := dropArtifact_sweeps r strategy hlive
      refine (hdrop.trans (ih _ (hdrop.dryRun.trans hlive))).congr ?_
      intro row
      rw [List.mem_cons]
      constructor
      · rintro (rfl | ⟨hrow, hmem⟩)
        · exact ⟨Bool.eq_false_iff.mpr hfree, .inl rfl⟩
        · exact ⟨hrow, .inr hmem⟩
      · rintro ⟨hrow, rfl | hmem⟩
        · exact .inl rfl
        · exact .inr ⟨hrow, hmem⟩

variable (service)

/-- The age strategy, where it returns. -/
theorem runTtl_sweeps (hpanics : ¬ TtlPanics service.config service.now) {s : Run}
    (hlive : s.report.dryRun = false) :
    (runTtl service s).1 = .finished ∧
      Sweeps service .ttl (Expired service.config service.held service.now s.table) s
        (runTtl service s).2 := by
  unfold runTtl
  cases httl : service.config.artifactTtlSecs with
  | none =>
    refine ⟨rfl, Sweeps.none service .ttl s ?_⟩
    rintro row ⟨-, secs, olderThan, hsecs, -⟩
    exact absurd (httl.symm.trans hsecs) (Option.some_ne_none _).symm
  | some secs =>
    dsimp only
    cases hcutoff : cutoff secondUnit secs service.now with
    | none => exact absurd ⟨secs, httl, hcutoff⟩ hpanics
    | some olderThan =>
      refine ⟨rfl, (dropEach_sweeps _ _ 0 hlive).counted.congr ?_⟩
      intro row
      refine and_congr_right fun _ => ⟨fun hrow => ⟨secs, olderThan, httl, hcutoff, hrow⟩, ?_⟩
      rintro ⟨secs', olderThan', hsecs, hcutoff', hrow⟩
      cases httl.symm.trans hsecs
      cases hcutoff.symm.trans hcutoff'
      exact hrow

theorem runIdle_sweeps (hpanics : ¬ IdlePanics service.config service.now) {s : Run}
    (hlive : s.report.dryRun = false) :
    (runIdle service s).1 = .finished ∧
      Sweeps service .idle (Idle service.config service.held service.now s.table) s
        (runIdle service s).2 := by
  unfold runIdle
  cases hidle : service.config.idleDays with
  | none =>
    refine ⟨rfl, Sweeps.none service .idle s ?_⟩
    rintro row ⟨-, days, idleSince, hdays, -⟩
    exact absurd (hidle.symm.trans hdays) (Option.some_ne_none _).symm
  | some days =>
    dsimp only
    cases hcutoff : cutoff dayUnit days service.now with
    | none => exact absurd ⟨days, hidle, hcutoff⟩ hpanics
    | some idleSince =>
      refine ⟨rfl, (dropEach_sweeps _ _ 0 hlive).counted.congr ?_⟩
      intro row
      refine and_congr_right fun _ => ⟨fun hrow => ⟨days, idleSince, hidle, hcutoff, hrow⟩, ?_⟩
      rintro ⟨days', idleSince', hdays, hcutoff', hrow⟩
      cases hidle.symm.trans hdays
      cases hcutoff.symm.trans hcutoff'
      exact hrow

theorem runKeepLatestN_sweeps {s : Run} (hlive : s.report.dryRun = false) :
    (runKeepLatestN service s).1 = .finished ∧
      Sweeps service .keepLatestN (Beyond service.config service.held s.table) s
        (runKeepLatestN service s).2 := by
  unfold runKeepLatestN
  cases hkeep : service.config.keepLatestN with
  | none =>
    refine ⟨rfl, Sweeps.none service .keepLatestN s ?_⟩
    rintro row ⟨-, n, hn, -⟩
    exact absurd (hkeep.symm.trans hn) (Option.some_ne_none _).symm
  | some n =>
    cases n with
    | zero =>
      have hnone : ∀ row, ¬ Beyond service.config service.held s.table row := by
        rintro row ⟨-, n, hn, hpos, -⟩
        cases hkeep.symm.trans hn
        exact Nat.lt_irrefl 0 hpos
      have hsame : Sweeps service .keepLatestN _ s ((0, s) : ℕ × Run).2 :=
        Sweeps.none service .keepLatestN s hnone
      exact ⟨rfl, hsame.counted⟩
    | succ n =>
      refine ⟨rfl, (dropEach_sweeps _ _ 0 hlive).counted.congr ?_⟩
      intro row
      refine and_congr_right fun _ => ⟨fun hrow => ⟨n + 1, hkeep, n.succ_pos, hrow⟩, ?_⟩
      rintro ⟨n', hn, -, hrow⟩
      cases hkeep.symm.trans hn
      exact hrow

theorem andThen_finished {first second : Run → Ending × Run} {s : Run}
    (h : (first s).1 = .finished) : andThen first second s = second (first s).2 := by
  unfold andThen
  generalize first s = result at h ⊢
  obtain ⟨ending, s'⟩ := result
  cases h
  rfl

theorem runTtl_panicked (hpanics : TtlPanics service.config service.now) (s : Run) :
    runTtl service s = (.panicked, s) := by
  obtain ⟨secs, hsecs, hcutoff⟩ := hpanics
  unfold runTtl
  rw [hsecs]
  dsimp only
  rw [hcutoff]

theorem runIdle_panicked (hpanics : IdlePanics service.config service.now) (s : Run) :
    runIdle service s = (.panicked, s) := by
  obtain ⟨days, hdays, hcutoff⟩ := hpanics
  unfold runIdle
  rw [hdays]
  dsimp only
  rw [hcutoff]

/-- The runs of the four strategies, one after the other, with nothing behind a panic. -/
structure Trace (service : EvictionService) (s s₁ s₂ s₃ s₄ : Run) : Prop where
  ttl : Sweeps service .ttl (Expired service.config service.held service.now s.table) s s₁
  idle : Sweeps service .idle (fun row => ¬ TtlPanics service.config service.now ∧
    Idle service.config service.held service.now s₁.table row) s₁ s₂
  latest : Sweeps service .keepLatestN (fun row => ¬ TtlPanics service.config service.now ∧
    ¬ IdlePanics service.config service.now ∧
    Beyond service.config service.held s₂.table row) s₂ s₃
  lru : Extends .lru (fun row => row ∈ s₃.table.rows ∧
    ArtifactTable.inScope service.config.registry row = true) s₃ s₄

theorem not_expired_of_panics (hpanics : TtlPanics service.config service.now)
    (table : ArtifactTable) (row : ArtifactMeta) :
    ¬ Expired service.config service.held service.now table row := by
  obtain ⟨secs, hsecs, hnone⟩ := hpanics
  rintro ⟨-, secs', olderThan, hsecs', hcutoff, -⟩
  cases hsecs.symm.trans hsecs'
  exact absurd (hnone.symm.trans hcutoff) (Option.some_ne_none _).symm

theorem not_idle_of_panics (hpanics : IdlePanics service.config service.now)
    (table : ArtifactTable) (row : ArtifactMeta) :
    ¬ Idle service.config service.held service.now table row := by
  obtain ⟨days, hdays, hnone⟩ := hpanics
  rintro ⟨-, days', idleSince, hdays', hcutoff, -⟩
  cases hdays.symm.trans hdays'
  exact absurd (hnone.symm.trans hcutoff) (Option.some_ne_none _).symm

theorem runAll_trace (fuel : ℕ) (table : ArtifactTable) (blobs : List String) :
    ∃ s₁ s₂ s₃ s₄, Trace service (Run.start table blobs false) s₁ s₂ s₃ s₄ ∧
      (runAll service fuel false table blobs).2.log = s₄.log := by
  unfold runAll
  generalize hstart : Run.start table blobs false = s
  have hlive : s.report.dryRun = false := hstart ▸ rfl
  by_cases httl : TtlPanics service.config service.now
  · refine ⟨s, s, s, s, ⟨?_, ?_, ?_, Extends.refl ..⟩, ?_⟩
    · exact Sweeps.none _ _ _ (not_expired_of_panics service httl s.table)
    · exact Sweeps.none _ _ _ fun row hrow => hrow.1 httl
    · exact Sweeps.none _ _ _ fun row hrow => hrow.1 httl
    · rw [andThen, runTtl_panicked service httl]
  · obtain ⟨hfirst, hsweeps₁⟩ := runTtl_sweeps service httl hlive
    have hlive₁ := hsweeps₁.dryRun.trans hlive
    rw [andThen_finished hfirst]
    generalize (runTtl service s).2 = s₁ at hsweeps₁ hlive₁ ⊢
    by_cases hidle : IdlePanics service.config service.now
    · refine ⟨s₁, s₁, s₁, s₁, ⟨hsweeps₁, ?_, ?_, Extends.refl ..⟩, ?_⟩
      · exact Sweeps.none _ _ _ fun row hrow =>
          not_idle_of_panics service hidle s₁.table row hrow.2
      · exact Sweeps.none _ _ _ fun row hrow => hrow.2.1 hidle
      · rw [andThen, runIdle_panicked service hidle]
    · obtain ⟨hsecond, hsweeps₂⟩ := runIdle_sweeps service hidle hlive₁
      have hlive₂ := hsweeps₂.dryRun.trans hlive₁
      rw [andThen_finished hsecond]
      generalize (runIdle service s₁).2 = s₂ at hsweeps₂ hlive₂ ⊢
      obtain ⟨hthird, hsweeps₃⟩ := runKeepLatestN_sweeps service hlive₂
      rw [andThen_finished hthird]
      refine ⟨s₁, s₂, _, (runLruSizeCap service fuel (runKeepLatestN service s₂).2).2,
        ⟨hsweeps₁, ?_, ?_, runLruSizeCap_extends service fuel _⟩, ?_⟩
      · exact hsweeps₂.congr fun row => (and_iff_right httl).symm
      · refine hsweeps₃.congr fun row => ?_
        rw [and_iff_right httl, and_iff_right hidle]
      · unfold andThen
        generalize runLruSizeCap service fuel (runKeepLatestN service s₂).2 = result
        obtain ⟨ending, s₄⟩ := result
        cases ending with
        | finished => rfl
        | panicked => rfl
        | looping => rfl

end Sweeps

section Windows
variable {now olderThan : DateTime} {unit : ℤ} {window : ℕ}

theorem cutoff_some (h : cutoff unit window now = some olderThan) :
    olderThan = now - unit * asI64 window * 10 ^ 9 ∧
      unit * asI64 window ≤ (2 ^ 63 - 1) / 1000 ∧ Instants.Representable olderThan := by
  unfold cutoff seconds Instants.checkedSubSigned at h
  split at h
  · rename_i hrange
    rw [Option.bind_some] at h
    split at h
    · rename_i hinstant
      cases h
      exact ⟨rfl, hrange.2, hinstant⟩
    · cases h
  · cases h

/-- A window that fits is subtracted as it is. -/
theorem cutoff_exact (hfits : window < 2 ^ 63) (h : cutoff unit window now = some olderThan) :
    olderThan = now - unit * window * 10 ^ 9 := by
  have hasIs : asI64 window = window := if_pos hfits
  rw [(cutoff_some h).1, hasIs]

/-- Nothing is older than a window that does not fit. -/
theorem before_first (hunit : 1 ≤ unit) (hwraps : 2 ^ 63 ≤ window)
    (h : cutoff unit window now = some olderThan) :
    now - unit * window * 10 ^ 9 < Instants.minUtc := by
  obtain ⟨heq, hrange, -, hlast⟩ := cutoff_some h
  have hwindow : (2 : ℤ) ^ 63 ≤ unit * window := by
    have hcast : (2 : ℤ) ^ 63 ≤ window := by exact_mod_cast hwraps
    have hmul := Int.mul_le_mul_of_nonneg_right hunit (Int.natCast_nonneg window)
    rw [Int.one_mul] at hmul
    exact hcast.trans hmul
  unfold Instants.maxUtc at hlast
  unfold Instants.minUtc
  rw [heq] at hlast
  generalize unit * asI64 window = taken at hrange hlast
  generalize unit * (window : ℤ) = whole at hwindow
  unfold DateTime at *
  omega

end Windows

section Scope
variable {config : EvictionConfig} {held : List String} {now : DateTime} {table : ArtifactTable}

theorem registry_of_inScope {registry : String} (hregistry : registry ≠ "") {row : ArtifactMeta}
    (h : ArtifactTable.inScope registry row = true) : row.registry = registry := by
  unfold ArtifactTable.inScope at h
  rw [decide_eq_false hregistry, Bool.false_or] at h
  exact of_decide_eq_true h

theorem Expired.mem {row : ArtifactMeta} (h : Expired config held now table row) :
    row ∈ table.rows ∧ ArtifactTable.inScope config.registry row = true := by
  obtain ⟨-, secs, olderThan, -, -, hrow⟩ := h
  exact List.mem_filter.mp (List.mem_of_mem_filter hrow)

theorem Idle.mem {row : ArtifactMeta} (h : Idle config held now table row) :
    row ∈ table.rows ∧ ArtifactTable.inScope config.registry row = true := by
  obtain ⟨-, days, idleSince, -, -, hrow⟩ := h
  exact List.mem_filter.mp (List.mem_of_mem_filter hrow)

/-- What the idle strategy names does not depend on the other rows. -/
theorem idle_iff {table' : ArtifactTable} {row : ArtifactMeta} (hrow : row ∈ table.rows)
    (hrow' : row ∈ table'.rows) :
    Idle config held now table row ↔ Idle config held now table' row := by
  unfold Idle ArtifactTable.listIdle ArtifactTable.listArtifacts
  simp only [List.mem_filter, hrow, hrow', true_and]

theorem mem_beyond {n : ℕ} (hkeep : config.keepLatestN = some n) {row : ArtifactMeta} :
    Beyond config held table row ↔
      isHeld held row = false ∧ 0 < n ∧ row ∈ table.rows ∧ n ≤ table.position row := by
  unfold Beyond
  refine and_congr_right fun _ => ⟨?_, ?_⟩
  · rintro ⟨n', hn, hpos, hrow⟩
    cases hkeep.symm.trans hn
    exact ⟨hpos, mem_beyondWindow.mp hrow⟩
  · rintro ⟨hpos, hrow⟩
    exact ⟨n, hkeep, hpos, mem_beyondWindow.mpr hrow⟩

variable {service : EvictionService} {s s₁ s₂ s₃ s₄ : Run}

/-- Every drop of a run is one of its strategies'. -/
theorem Trace.mem_log (h : Trace service s s₁ s₂ s₃ s₄) (hstart : s.log = []) {e : Entry}
    (he : e ∈ s₄.log) :
    (e.strategy = .ttl ∧
        Expired service.config service.held service.now s.table e.row) ∨
      (e.strategy = .idle ∧ ¬ TtlPanics service.config service.now ∧
        Idle service.config service.held service.now s₁.table e.row) ∨
      (e.strategy = .keepLatestN ∧ ¬ TtlPanics service.config service.now ∧
        ¬ IdlePanics service.config service.now ∧
        Beyond service.config service.held s₂.table e.row) ∨
      (e.strategy = .lru ∧ e.row ∈ s₃.table.rows ∧
        ArtifactTable.inScope service.config.registry e.row = true) := by
  rcases h.lru.mem_log he with he | hlru
  · rcases h.latest.mem_log he with he | hlatest
    · rcases h.idle.mem_log he with he | hidle
      · rcases h.ttl.mem_log he with he | httl
        · rw [hstart] at he
          cases he
        · exact .inl httl
      · exact .inr (.inl hidle)
    · exact .inr (.inr (.inl hlatest))
  · exact .inr (.inr (.inr hlru))

/-- Where no delete of bytes fails, every drop of the first three strategies deletes. -/
theorem Trace.deleted (h : Trace service s s₁ s₂ s₃ s₄) (hstart : s.log = [])
    (hfaults : ∀ i row, service.faults i row ≠ .storage) {e : Entry} (he : e ∈ s₃.log) :
    e.deleted = true := by
  rcases h.latest.deleted hfaults e he with he₂ | hdeleted
  · rcases h.idle.deleted hfaults e he₂ with he₁ | hdeleted
    · rcases h.ttl.deleted hfaults e he₁ with he₀ | hdeleted
      · rw [hstart] at he₀
        cases he₀
      · exact hdeleted
    · exact hdeleted
  · exact hdeleted

theorem takesNamed_of_scoped (hregistry : config.registry ≠ "")
    (h : Scoped config held now table) {faults : ℕ → ArtifactMeta → Fault} {blobs : List String}
    (htrace : Trace ⟨config, held, now, faults⟩ (Run.start table blobs false) s₁ s₂ s₃ s₄) :
    TakesNamed config now table s₄ := by
  have hsub₁ := htrace.ttl.table
  have hsub₂ := htrace.idle.table.trans hsub₁
  have hsub₃ := htrace.latest.table.trans hsub₂
  have hidle : ∀ row, Idle config held now s₁.table row → Idle config held now table row :=
    fun row hrow => (idle_iff (hsub₁.subset hrow.mem.1) hrow.mem.1).mpr hrow
  have hbeyond : ∀ n, config.keepLatestN = some n → ∀ row, Beyond config held s₂.table row →
      isHeld held row = false ∧ 0 < n ∧ row ∈ table.rows ∧ n ≤ table.position row := by
    intro n hkeep row hrow
    obtain ⟨hfree, hpos, hmem, hn⟩ := (mem_beyond hkeep).mp hrow
    exact ⟨hfree, hpos, hsub₂.subset hmem, hn.trans (position_mono hsub₂ hmem)⟩
  refine ⟨?_, ?_, ?_, ?_⟩
  · intro e he _
    rcases htrace.mem_log rfl he with
      ⟨-, hrow⟩ | ⟨-, -, hrow⟩ | ⟨-, httl, hidl, hrow⟩ | ⟨-, -, hrow⟩
    · exact registry_of_inScope hregistry hrow.mem.2
    · exact registry_of_inScope hregistry hrow.mem.2
    · obtain ⟨-, n, hkeep, -⟩ := id hrow
      obtain ⟨hfree, hpos, hmem, hn⟩ := hbeyond n hkeep e.row hrow
      exact (h.latest httl hidl n hkeep hpos e.row hmem hfree hn).1
    · exact registry_of_inScope hregistry hrow
  · intro n hkeep e he _ hstrategy hamong
    rcases htrace.mem_log rfl he with ⟨hs, -⟩ | ⟨hs, -⟩ | ⟨-, httl, hidl, hrow⟩ | ⟨hs, -⟩
    · exact absurd (hs.symm.trans hstrategy) (by decide)
    · exact absurd (hs.symm.trans hstrategy) (by decide)
    · obtain ⟨hfree, hpos, hmem, hn⟩ := hbeyond n hkeep e.row hrow
      have hmem₂ := ((mem_beyond hkeep).mp hrow).2.2.1
      -- what another strategy names is in its part of the log, even if its delete failed
      rcases (h.latest httl hidl n hkeep hpos e.row hmem hfree hn).2 hamong with hexp | hid
      · obtain ⟨e', he', hs', hrow'⟩ := htrace.ttl.names e.row hexp
        refine ⟨e', ?_, hs' ▸ by decide, hrow'⟩
        exact htrace.lru.log_subset (htrace.latest.log_subset (htrace.idle.log_subset he'))
      · have hid₁ : Idle config held now s₁.table e.row :=
          (idle_iff hmem (htrace.idle.table.subset hmem₂)).mp hid
        obtain ⟨e', he', hs', hrow'⟩ := htrace.idle.names e.row ⟨httl, hid₁⟩
        refine ⟨e', ?_, hs' ▸ by decide, hrow'⟩
        exact htrace.lru.log_subset (htrace.latest.log_subset he')
    · exact absurd (hs.symm.trans hstrategy) (by decide)
  · intro secs hsecs e he _ hstrategy
    rcases htrace.mem_log rfl he with ⟨-, hrow⟩ | ⟨hs, -⟩ | ⟨hs, -⟩ | ⟨hs, -⟩
    · have hfits : secs < 2 ^ 63 := by
        by_contra hwraps
        exact h.ttl secs hsecs (Nat.not_lt.mp hwraps) e.row hrow.mem.1 hrow
      obtain ⟨-, secs', olderThan, hsecs', hcutoff, hlisted⟩ := hrow
      cases hsecs.symm.trans hsecs'
      rw [← cutoff_exact hfits hcutoff]
      exact of_decide_eq_true (List.mem_filter.mp hlisted).2
    · exact absurd (hs.symm.trans hstrategy) (by decide)
    · exact absurd (hs.symm.trans hstrategy) (by decide)
    · exact absurd (hs.symm.trans hstrategy) (by decide)
  · intro days hdays e he _ hstrategy
    rcases htrace.mem_log rfl he with ⟨hs, -⟩ | ⟨-, httl, hrow⟩ | ⟨hs, -⟩ | ⟨hs, -⟩
    · exact absurd (hs.symm.trans hstrategy) (by decide)
    · have hfits : days < 2 ^ 63 := by
        by_contra hwraps
        exact h.idle httl days hdays (Nat.not_lt.mp hwraps) e.row (hidle e.row hrow).mem.1
          (hidle e.row hrow)
      obtain ⟨-, days', idleSince, hdays', hcutoff, hlisted⟩ := hrow
      cases hdays.symm.trans hdays'
      rw [← cutoff_exact hfits hcutoff]
      exact of_decide_eq_true (List.mem_filter.mp hlisted).2
    · exact absurd (hs.symm.trans hstrategy) (by decide)
    · exact absurd (hs.symm.trans hstrategy) (by decide)

/-- Against a condition that fails there is a run: every row comes back, but for the one that
keep-latest-N is to take. -/
theorem scoped_of_takesNamed (hregistry : config.registry ≠ "")
    (h : ∀ faults, TakesNamed config now table
      (runAll ⟨config, held, now, faults⟩ 0 false table []).2) :
    Scoped config held now table := by
  have hstart : (Run.start table [] false).log = [] := rfl
  have hmetadata : Fault.metadata ≠ Fault.storage := by decide
  refine ⟨?_, ?_, ?_⟩
  · intro secs hsecs hwraps row hrow hexp
    obtain ⟨s₁, s₂, s₃, s₄, htrace, hlog⟩ :=
      runAll_trace ⟨config, held, now, fun _ _ => .metadata⟩ 0 table []
    obtain ⟨e, he, hstrategy, rfl⟩ := htrace.ttl.names row hexp
    have he₃ := htrace.latest.log_subset (htrace.idle.log_subset he)
    have hdeleted := htrace.deleted hstart (fun _ _ => hmetadata) he₃
    have hfinal : e ∈ (runAll ⟨config, held, now, fun _ _ => .metadata⟩ 0 false table []).2.log :=
      hlog ▸ htrace.lru.log_subset he₃
    have hlate := (h _).expired secs hsecs e hfinal hdeleted hstrategy
    obtain ⟨-, secs', olderThan, hsecs', hcutoff, -⟩ := hexp
    cases hsecs.symm.trans hsecs'
    have hfirst := (table.instants e.row hrow).1.1
    exact absurd (hlate.trans (before_first (by decide) hwraps hcutoff)) (not_lt.mpr hfirst)
  · intro httl days hdays hwraps row hrow hidle
    obtain ⟨s₁, s₂, s₃, s₄, htrace, hlog⟩ :=
      runAll_trace ⟨config, held, now, fun _ _ => .metadata⟩ 0 table []
    have hsame : s₁.table = table := htrace.ttl.unchanged fun _ _ _ => rfl
    obtain ⟨e, he, hstrategy, rfl⟩ := htrace.idle.names row ⟨httl, hsame ▸ hidle⟩
    have he₃ := htrace.latest.log_subset he
    have hdeleted := htrace.deleted hstart (fun _ _ => hmetadata) he₃
    have hfinal : e ∈ (runAll ⟨config, held, now, fun _ _ => .metadata⟩ 0 false table []).2.log :=
      hlog ▸ htrace.lru.log_subset he₃
    have hlate := (h _).idle days hdays e hfinal hdeleted hstrategy
    obtain ⟨-, days', idleSince, hdays', hcutoff, -⟩ := hidle
    cases hdays.symm.trans hdays'
    have hfirst := (table.instants e.row hrow).2.1
    exact absurd (hlate.trans (before_first (by decide) hwraps hcutoff)) (not_lt.mpr hfirst)
  · intro httl hidl n hkeep hpos row hrow hfree hn
    by_contra hnot
    generalize hfaults : (fun (_ : ℕ) r => if r = row then Fault.none else .metadata) = faults
    have hother : ∀ r, r ≠ row → ∀ i, faults i r = .metadata := by
      intro r hne i
      rw [← hfaults]
      exact if_neg hne
    have hself : ∀ i, faults i row = .none := by
      intro i
      rw [← hfaults]
      exact if_pos rfl
    have hnever : ∀ i r, faults i r ≠ .storage := by
      intro i r
      by_cases heq : r = row
      · rw [heq, hself]
        decide
      · rw [hother r heq]
        decide
    obtain ⟨s₁, s₂, s₃, s₄, htrace, hlog⟩ := runAll_trace ⟨config, held, now, faults⟩ 0 table []
    -- the row is of another registry, or no other strategy names it
    have hfreely : ¬ Expired config held now table row ∧ ¬ Idle config held now table row := by
      by_contra hnamed
      refine hnot ?_
      rw [← not_or, not_not] at hnamed
      refine ⟨?_, fun _ => hnamed⟩
      rcases hnamed with hexp | hid
      · exact registry_of_inScope hregistry hexp.mem.2
      · exact registry_of_inScope hregistry hid.mem.2
    have hsame₁ : s₁.table = table := by
      refine htrace.ttl.unchanged ?_
      intro r hr
      exact hother r fun heq => hfreely.1 (heq ▸ hr)
    have hsame₂ : s₂.table = table := by
      refine (htrace.idle.unchanged ?_).trans hsame₁
      rintro r ⟨-, hr⟩
      rw [hsame₁] at hr
      exact hother r fun heq => hfreely.2 (heq ▸ hr)
    have hbeyond : Beyond config held s₂.table row :=
      (mem_beyond hkeep).mpr ⟨hfree, hpos, hsame₂ ▸ hrow, hsame₂ ▸ hn⟩
    obtain ⟨e, he, hstrategy, rfl⟩ := htrace.latest.names row ⟨httl, hidl, hbeyond⟩
    have hdeleted := htrace.deleted hstart hnever he
    have hfinal : e ∈ (runAll ⟨config, held, now, faults⟩ 0 false table []).2.log :=
      hlog ▸ htrace.lru.log_subset he
    refine hnot ⟨(h faults).scope e hfinal hdeleted, ?_⟩
    intro hamong
    obtain ⟨e', he', hstrategy', hsamerow⟩ :=
      (h faults).latest n hkeep e hfinal hdeleted hstrategy hamong
    rw [hlog] at he'
    rcases htrace.mem_log hstart he' with ⟨-, hr⟩ | ⟨-, -, hr⟩ | ⟨hkeeps, -⟩ | ⟨-, hr, -⟩
    · exact .inl (hsamerow ▸ hr)
    · exact .inr (hsame₁ ▸ hsamerow ▸ hr)
    · exact absurd hkeeps hstrategy'
    · exact absurd (hsamerow ▸ hr) (htrace.latest.gone e.row ⟨httl, hidl, hbeyond⟩ hself)

/-- A live run over one registry deletes only what its policy names, whatever deletes fail,
exactly when no window wraps onto an artifact and everything behind the first `n` of a package
is of the registry and, by age or idleness or its version's, to go. -/
theorem eviction_takes_named_iff (config : EvictionConfig) (held : List String) (now : DateTime)
    (table : ArtifactTable) (hregistry : config.registry ≠ "") :
    (∀ faults blobs fuel, TakesNamed config now table
      (runAll ⟨config, held, now, faults⟩ fuel false table blobs).2) ↔
      Scoped config held now table := by
  constructor
  · intro h
    exact scoped_of_takesNamed hregistry fun faults => h faults [] 0
  · intro h faults blobs fuel
    obtain ⟨s₁, s₂, s₃, s₄, htrace, hlog⟩ :=
      runAll_trace ⟨config, held, now, faults⟩ fuel table blobs
    obtain ⟨hscope, hlatest, hexpired, hidle⟩ := takesNamed_of_scoped hregistry h htrace
    constructor
    · rwa [hlog]
    · rwa [hlog]
    · rwa [hlog]
    · rwa [hlog]

end Scope

section Samples

def fileOf (key registry version : String) (cachedAt : DateTime) : ArtifactMeta :=
  ⟨key, registry, "pkg", version, some 1, cachedAt, cachedAt⟩

/-- Version 2 has two files, and another registry has the package too. -/
def twoRegistries : ArtifactTable where
  rows := [fileOf "r/pkg/2.whl" "r" "2" 30, fileOf "r/pkg/2.zip" "r" "2" 20,
    fileOf "s/pkg/2" "s" "2" 30, fileOf "s/pkg/1" "s" "1" 20]
  keys := by decide
  instants := by decide

def keepOne : EvictionConfig := ⟨none, none, none, some 1, "r"⟩

def longestTtl : EvictionConfig := ⟨some (2 ^ 64 - 1), none, none, none, "r"⟩

/-- A file of the only version and one of another registry go, and the longest window takes
what was just cached. -/
theorem eviction_takes_unnamed :
    (∃ e ∈ (runAll ⟨keepOne, [], 40, fun _ _ => .none⟩ 0 false twoRegistries []).2.log,
      e.deleted = true ∧ e.strategy = .keepLatestN ∧ e.row.registry = "r" ∧
        AmongLatest twoRegistries 1 e.row) ∧
    (∃ e ∈ (runAll ⟨keepOne, [], 40, fun _ _ => .none⟩ 0 false twoRegistries []).2.log,
      e.deleted = true ∧ e.row.registry = "s") ∧
    ∃ e ∈ (runAll ⟨longestTtl, [], 40, fun _ _ => .none⟩ 0 false twoRegistries []).2.log,
      e.deleted = true ∧ e.strategy = .ttl ∧
        ¬ e.row.cachedAt < 40 - secondUnit * (2 ^ 64 - 1) * 10 ^ 9 := by
  decide

theorem eviction_takes_named_iff_two_registries :
    (∀ faults blobs fuel, TakesNamed keepOne 40 twoRegistries
      (runAll ⟨keepOne, [], 40, faults⟩ fuel false twoRegistries blobs).2) ↔
      Scoped keepOne [] 40 twoRegistries :=
  eviction_takes_named_iff keepOne [] 40 twoRegistries (by decide)

end Samples

end BatleHub.Eviction
