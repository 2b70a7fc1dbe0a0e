import BatleHub.Eviction

/-!
The size cap of the eviction service. Without failures the loop drops the rows of its pages
in order until the total is at the cap, the present ones of a page before those upstream has
lost. Whether a lost row goes before a present one depends on the pages alone.
-/
namespace BatleHub.Eviction

open Lib.StableSort

section Tables

instance total_accessOrder : Std.Total ArtifactTable.accessOrder :=
  ⟨fun a b => le_total a.lastAccessedAt b.lastAccessedAt⟩

instance trans_accessOrder : IsTrans ArtifactMeta ArtifactTable.accessOrder :=
  ⟨fun _ _ _ hab hbc => le_trans (show (_ : ℤ) ≤ _ from hab) hbc⟩

def sizes (rows : List ArtifactMeta) : ℕ := (rows.map ArtifactMeta.size).sum

/-- The rows of a registry, the least recently accessed first. -/
def ArtifactTable.lruRows (table : ArtifactTable) (registry : String) : List ArtifactMeta :=
  (table.listArtifacts registry).insertionSort accessOrder

theorem listLru_eq (table : ArtifactTable) (registry : String) (limit : ℕ) :
    table.listLru registry limit = (table.lruRows registry).take limit := rfl

theorem sizes_cons (row : ArtifactMeta) (rows : List ArtifactMeta) :
    sizes (row :: rows) = row.size + sizes rows := by
  rw [sizes, List.map_cons, List.sum_cons]
  rfl

theorem sizes_append (rows rows' : List ArtifactMeta) :
    sizes (rows ++ rows') = sizes rows + sizes rows' := by
  rw [sizes, List.map_append, List.sum_append]
  rfl

theorem sizes_perm {rows rows' : List ArtifactMeta} (h : rows.Perm rows') :
    sizes rows = sizes rows' :=
  (h.map ArtifactMeta.size).sum_nat

theorem totalSizeBytes_eq (table : ArtifactTable) (registry : String) :
    table.totalSizeBytes registry = sizes (table.lruRows registry) := by
  have hsum : ∀ rows : List ArtifactMeta,
      (rows.filterMap ArtifactMeta.sizeBytes).sum = sizes rows := by
    intro rows
    induction rows with
    | nil => rfl
    | cons row rows ih =>
      rw [sizes_cons, ← ih]
      cases hsize : row.sizeBytes with
      | none => rw [List.filterMap_cons_none hsize, ArtifactMeta.size, hsize, Option.getD_none,
          Nat.zero_add]
      | some n => rw [List.filterMap_cons_some hsize, List.sum_cons, ArtifactMeta.size, hsize,
          Option.getD_some]
  rw [ArtifactTable.totalSizeBytes, hsum]
  exact (sizes_perm (List.perm_insertionSort _ _)).symm

theorem nodup_rows (table : ArtifactTable) : table.rows.Nodup := table.keys.of_map

theorem nodup_lruRows (table : ArtifactTable) (registry : String) :
    (table.lruRows registry).Nodup :=
  (List.perm_insertionSort _ _).nodup_iff.mpr ((nodup_rows table).filter _)

theorem mem_lruRows {table : ArtifactTable} {registry : String} {row : ArtifactMeta} :
    row ∈ table.lruRows registry ↔
      row ∈ table.rows ∧ ArtifactTable.inScope registry row = true := by
  rw [ArtifactTable.lruRows, List.mem_insertionSort, ArtifactTable.listArtifacts, List.mem_filter]

theorem eq_of_artifactKey {table : ArtifactTable} {row row' : ArtifactMeta}
    (hrow : row ∈ table.rows) (hrow' : row' ∈ table.rows)
    (h : row.artifactKey = row'.artifactKey) : row = row' :=
  List.inj_on_of_nodup_map table.keys hrow hrow' h

variable {s : Run} {strategy : Strategy} {rows : List ArtifactMeta}

/-- What a live run drops is what is missing afterwards. -/
theorem takeAll_rows (hlive : s.report.dryRun = false) (hrows : ∀ row ∈ rows, row ∈ s.table.rows) :
    (takeAll strategy rows s).table.rows =
      s.table.rows.filter fun row => !decide (row ∈ rows) := by
  rw [takeAll_live hlive]
  refine List.filter_congr ?_
  intro row hrow
  have hiff : row.artifactKey ∈ rows.map ArtifactMeta.artifactKey ↔ row ∈ rows := by
    constructor
    · intro hkey
      obtain ⟨r, hr, heq⟩ := List.mem_map.mp hkey
      exact eq_of_artifactKey (hrows r hr) hrow heq ▸ hr
    · exact List.mem_map_of_mem
  simp [hiff]

theorem takeAll_lruRows (hlive : s.report.dryRun = false) (registry : String)
    (hrows : ∀ row ∈ rows, row ∈ s.table.rows) :
    (takeAll strategy rows s).table.lruRows registry =
      (s.table.lruRows registry).filter fun row => !decide (row ∈ rows) := by
  unfold ArtifactTable.lruRows ArtifactTable.listArtifacts
  rw [takeAll_rows hlive hrows, List.filter_comm, filter_insertionSort]

end Tables

section Order
variable (held : List String)

/-- The beginning of a list that has to go until the total is at the cap. -/
def evictUntil (cap : ℕ) : ℕ → List ArtifactMeta → List ArtifactMeta
  | _, [] => []
  | total, row :: rows =>
    if total ≤ cap then [] else row :: evictUntil cap (total - row.size) rows

/-- The rows in the order in which the loop reaches them, page after page. -/
def pageOrder (rows : List ArtifactMeta) : List ArtifactMeta :=
  if rows = [] then []
  else presentFirst held (rows.take lruPage) ++ pageOrder (rows.drop lruPage)
termination_by rows.length
decreasing_by
  rename_i hne
  have hpos := List.length_pos_iff.mpr hne
  rw [List.length_drop, lruPage]
  omega

variable {held} {cap : ℕ}

theorem evictUntil_of_le {total : ℕ} (h : total ≤ cap) (rows : List ArtifactMeta) :
    evictUntil cap total rows = [] := by
  cases rows with
  | nil => rfl
  | cons row rows => exact if_pos h

theorem evictUntil_first (total : ℕ) (rows : List ArtifactMeta) :
    evictUntil cap total rows <+: rows := by
  induction rows generalizing total with
  | nil => exact List.prefix_rfl
  | cons row rows ih =>
    unfold evictUntil
    split
    · exact List.nil_prefix
    · exact (List.prefix_cons_inj row).mpr (ih _)

/-- Either the cap is reached or everything goes. -/
theorem evictUntil_spec (total : ℕ) (rows : List ArtifactMeta) :
    total - sizes (evictUntil cap total rows) ≤ cap ∨ evictUntil cap total rows = rows := by
  induction rows generalizing total with
  | nil => exact .inr rfl
  | cons row rows ih =>
    unfold evictUntil
    split
    · rename_i hle
      exact .inl ((Nat.sub_le ..).trans hle)
    · refine (ih (total - row.size)).imp ?_ (congrArg (List.cons row))
      intro hle
      rw [sizes_cons, ← Nat.sub_sub]
      exact hle

theorem evictUntil_append (total : ℕ) (rows rows' : List ArtifactMeta) :
    evictUntil cap total (rows ++ rows') = evictUntil cap total rows ++
      evictUntil cap (total - sizes (evictUntil cap total rows)) rows' := by
  induction rows generalizing total with
  | nil => rfl
  | cons row rows ih =>
    rw [List.cons_append, evictUntil, evictUntil]
    split
    · rename_i hle
      exact (evictUntil_of_le ((Nat.sub_le ..).trans hle) rows').symm
    · rw [ih, List.cons_append, sizes_cons, ← Nat.sub_sub]

theorem presentFirst_perm (rows : List ArtifactMeta) : (presentFirst held rows).Perm rows := by
  unfold presentFirst
  refine (List.perm_append_comm).trans ?_
  exact List.filter_append_perm (isHeld held) rows

theorem pageOrder_perm (rows : List ArtifactMeta) : (pageOrder held rows).Perm rows := by
  induction rows using pageOrder.induct with
  | case1 => rw [pageOrder, if_pos rfl]
  | case2 rows hne ih =>
    rw [pageOrder, if_neg hne]
    refine ((presentFirst_perm _).append ih).trans ?_
    rw [List.take_append_drop]

end Order

section Loop
variable {service : EvictionService} {cap : ℕ}

/-- A batch in which no delete fails. -/
theorem evictCandidates_eq (candidates : List ArtifactMeta) (b : Batch) (h : Works service b.run) :
    evictCandidates service cap candidates b =
      ⟨b.total - sizes (evictUntil cap b.total candidates),
        b.count + (evictUntil cap b.total candidates).length,
        b.heldEvicted + (kept service.held (evictUntil cap b.total candidates)).length,
        takeAll .lru (evictUntil cap b.total candidates) b.run⟩ := by
  induction candidates generalizing b with
  | nil => rfl
  | cons row candidates ih =>
    unfold evictCandidates evictUntil
    split
    · rfl
    · rw [dropArtifact_eq h]
      dsimp only
      rw [if_pos rfl, ih _ (h.takeOut .lru row)]
      dsimp only
      rw [sizes_cons, ← Nat.sub_sub, List.length_cons, Nat.add_assoc, Nat.add_comm 1, kept, kept,
        List.filter_cons]
      split
      · rw [List.length_cons, Nat.add_assoc, Nat.add_comm 1]
        rfl
      · rfl

/-- What is held back when a batch ends at the cap without touching a lost row. -/
def heldBack (held : List String) (cap total : ℕ) (candidates : List ArtifactMeta) : ℕ :=
  let gone := evictUntil cap total (presentFirst held candidates)
  if (kept held gone).length = 0 ∧ total - sizes gone ≤ cap then (kept held candidates).length
  else 0

theorem evictLruBatch_eq (candidates : List ArtifactMeta) (total : ℕ) {s : Run}
    (h : Works service s) :
    evictLruBatch service candidates total cap s =
      ((evictUntil cap total (presentFirst service.held candidates)).length,
        total - sizes (evictUntil cap total (presentFirst service.held candidates)),
        (takeAll .lru (evictUntil cap total (presentFirst service.held candidates)) s).countHeld
          (heldBack service.held cap total candidates)) := by
  unfold evictLruBatch heldBack
  rw [evictCandidates_eq _ ⟨total, 0, 0, s⟩ h]
  dsimp only
  rw [Nat.zero_add, Nat.zero_add]
  split
  · rfl
  · rfl

theorem drop_eq_filter {rows : List ArtifactMeta} (h : rows.Nodup) (n : ℕ) :
    (rows.filter fun row => !decide (row ∈ rows.take n)) = rows.drop n := by
  have hdisjoint : ∀ row ∈ rows.drop n, row ∉ rows.take n := by
    intro row hdrop htake
    rw [← List.take_append_drop n rows] at h
    exact (List.nodup_append.mp h).2.2 row htake row hdrop rfl
  conv_lhs =>
    arg 2
    rw [← List.take_append_drop n rows]
  rw [List.filter_append]
  have htake : (rows.take n).filter (fun row => !decide (row ∈ rows.take n)) = [] := by
    rw [List.filter_eq_nil_iff]
    intro row hrow
    simp [hrow]
  have hdrop : (rows.drop n).filter (fun row => !decide (row ∈ rows.take n)) = rows.drop n := by
    rw [List.filter_eq_self]
    intro row hrow
    simp [hdisjoint row hrow]
  rw [htake, hdrop, List.nil_append]

theorem evictUntil_ne_nil {total : ℕ} (htotal : cap < total) {rows : List ArtifactMeta}
    (hrows : rows ≠ []) : evictUntil cap total rows ≠ [] := by
  cases rows with
  | nil => exact absurd rfl hrows
  | cons row rows =>
    rw [evictUntil, if_neg (Nat.not_le.mpr htotal)]
    exact List.cons_ne_nil _ _

theorem evictUntil_pageOrder (total : ℕ) {rows : List ArtifactMeta} (hrows : rows ≠ []) :
    evictUntil cap total (pageOrder service.held rows) =
      evictUntil cap total (presentFirst service.held (rows.take lruPage)) ++
        evictUntil cap
          (total - sizes (evictUntil cap total (presentFirst service.held (rows.take lruPage))))
          (pageOrder service.held (rows.drop lruPage)) := by
  rw [pageOrder, if_neg hrows, evictUntil_append]

/-- What is held back over all pages: by the one that reaches the cap. -/
def pageHeld (held : List String) (cap total : ℕ) (rows : List ArtifactMeta) : ℕ :=
  if rows = [] ∨ total ≤ cap then 0
  else
    heldBack held cap total (rows.take lruPage) +
      pageHeld held cap (total - sizes (evictUntil cap total (presentFirst held
        (rows.take lruPage)))) (rows.drop lruPage)
termination_by rows.length
decreasing_by
  rename_i hmore
  have hpos := List.length_pos_iff.mpr (not_or.mp hmore).1
  rw [List.length_drop, lruPage]
  omega

theorem pageHeld_of_le {held : List String} {total : ℕ} (h : total ≤ cap)
    (rows : List ArtifactMeta) : pageHeld held cap total rows = 0 := by
  rw [pageHeld, if_pos (.inr h)]

theorem pageHeld_nil (held : List String) (total : ℕ) : pageHeld held cap total [] = 0 := by
  rw [pageHeld, if_pos (.inl rfl)]

theorem pageOrder_nil (held : List String) : pageOrder held [] = [] := by
  rw [pageOrder, if_pos rfl]

variable {held : List String} {total : ℕ} {rows gone : List ArtifactMeta}

theorem mem_page (hgone : gone = evictUntil cap total (presentFirst held (rows.take lruPage)))
    {row : ArtifactMeta} (hrow : row ∈ gone) : row ∈ rows.take lruPage := by
  rw [hgone] at hrow
  exact (presentFirst_perm _).mem_iff.mp ((evictUntil_first total _).subset hrow)

theorem page_ne_nil (hgone : gone = evictUntil cap total (presentFirst held (rows.take lruPage)))
    (htotal : cap < total) (hrows : rows ≠ []) : gone ≠ [] := by
  have horder : presentFirst held (rows.take lruPage) ≠ [] := by
    intro hnil
    have hpage := List.perm_nil.mp (hnil ▸ (presentFirst_perm _).symm)
    exact (List.take_eq_nil_iff.mp hpage).elim (by decide) hrows
  exact hgone ▸ evictUntil_ne_nil htotal horder

/-- A page reaches the cap, or leaves the later pages as they are. -/
theorem page_left (hnodup : rows.Nodup)
    (hgone : gone = evictUntil cap total (presentFirst held (rows.take lruPage))) :
    total - sizes gone ≤ cap ∨
      (rows.filter fun row => !decide (row ∈ gone)) = rows.drop lruPage := by
  rcases evictUntil_spec total (presentFirst held (rows.take lruPage)) with hle | hall
  · exact .inl (hgone ▸ hle)
  · right
    rw [← drop_eq_filter hnodup lruPage]
    refine List.filter_congr ?_
    intro row _
    rw [hgone, hall, decide_eq_decide.mpr (presentFirst_perm _).mem_iff]

/-- Without failures the loop ends, and has dropped the rows in page order until the total was
at the cap. -/
theorem lruLoop_eq (fuel total count : ℕ) {s : Run} {rows : List ArtifactMeta}
    (h : Works service s) (hlive : s.report.dryRun = false)
    (hrows : s.table.lruRows service.config.registry = rows) (hfuel : rows.length < fuel) :
    lruLoop service cap fuel total count s =
      (.finished, count + (evictUntil cap total (pageOrder service.held rows)).length,
        (takeAll .lru (evictUntil cap total (pageOrder service.held rows)) s).countHeld
          (pageHeld service.held cap total rows)) := by
  induction fuel generalizing total count s rows with
  | zero => exact absurd hfuel (Nat.not_lt_zero _)
  | succ fuel ih =>
    unfold lruLoop
    split
    · rename_i hcap
      have hle := Nat.sub_eq_zero_iff_le.mp hcap
      rw [evictUntil_of_le hle, pageHeld_of_le hle]
      rfl
    · rename_i hcap
      have htotal : cap < total := Nat.lt_of_sub_ne_zero hcap
      dsimp only
      rw [listLru_eq, hrows]
      by_cases hempty : rows = []
      · subst hempty
        rw [pageOrder_nil, pageHeld_nil]
        rfl
      · have hpage : rows.take lruPage ≠ [] := by
          rw [Ne, List.take_eq_nil_iff]
          exact not_or.mpr ⟨by decide, hempty⟩
        rw [if_neg (by rw [List.isEmpty_iff]; exact hpage), evictLruBatch_eq _ total h]
        dsimp only
        generalize hgone :
          evictUntil cap total (presentFirst service.held (rows.take lruPage)) = gone
        have hne := page_ne_nil hgone.symm htotal hempty
        have htable : ∀ row ∈ gone, row ∈ s.table.rows := by
          intro row hrow
          have hlru := List.mem_of_mem_take (mem_page hgone.symm hrow)
          rw [← hrows] at hlru
          exact (mem_lruRows.mp hlru).1
        have hleft : ((takeAll .lru gone s).countHeld (heldBack service.held cap total
            (rows.take lruPage))).table.lruRows service.config.registry =
              rows.filter fun row => !decide (row ∈ gone) :=
          (takeAll_lruRows hlive _ htable).trans (by rw [hrows])
        have hshorter : (rows.filter fun row => !decide (row ∈ gone)).length < fuel := by
          obtain ⟨row, hrow⟩ := List.exists_mem_of_ne_nil _ hne
          have hmem := List.mem_of_mem_take (mem_page hgone.symm hrow)
          have hlt : (rows.filter fun row => !decide (row ∈ gone)).length < rows.length :=
            List.length_filter_lt_length_iff_exists.mpr ⟨row, hmem, by simp [hrow]⟩
          omega
        rw [if_neg (fun hzero => hne (List.length_eq_zero_iff.mp hzero)),
          ih (total - sizes gone) (count + gone.length)
            (s := (takeAll .lru gone s).countHeld
              (heldBack service.held cap total (rows.take lruPage)))
            (h.takeAll .lru gone) ((takeAll_dryRun ..).trans hlive) hleft hshorter]
        -- the rest of the order is what is left of the table, or nothing is to go any more
        have hrest : evictUntil cap (total - sizes gone) (pageOrder service.held
              (rows.filter fun row => !decide (row ∈ gone))) =
            evictUntil cap (total - sizes gone) (pageOrder service.held (rows.drop lruPage)) ∧
          pageHeld service.held cap (total - sizes gone)
              (rows.filter fun row => !decide (row ∈ gone)) =
            pageHeld service.held cap (total - sizes gone) (rows.drop lruPage) := by
          rcases page_left (hrows ▸ nodup_lruRows s.table _) hgone.symm with hle | hdrop
          · rw [evictUntil_of_le hle, evictUntil_of_le hle, pageHeld_of_le hle, pageHeld_of_le hle]
            exact ⟨rfl, rfl⟩
          · rw [hdrop]
            exact ⟨rfl, rfl⟩
        have hheld : pageHeld service.held cap total rows =
            heldBack service.held cap total (rows.take lruPage) +
              pageHeld service.held cap (total - sizes gone) (rows.drop lruPage) := by
          rw [pageHeld, if_neg (not_or.mpr ⟨hempty, Nat.not_le.mpr htotal⟩), hgone]
        rw [hrest.1, hrest.2, evictUntil_pageOrder total hempty, hgone, hheld, List.length_append,
          Nat.add_assoc, takeAll_append, takeAll_countHeld, countHeld_countHeld]

end Loop

section Spared
variable {held : List String} {cap : ℕ}

/-- No lost row goes while a present row of the registry is left. -/
def Spares (held : List String) (rows dropped : List ArtifactMeta) : Prop :=
  ∀ before lost after, dropped = before ++ lost :: after → isHeld held lost = true →
    ∀ row ∈ free held rows, row ∈ before

/-- No page that is over the cap without its present rows holds a lost row while a later page
has a present one. -/
def PagesFree (held : List String) (cap total : ℕ) (rows : List ArtifactMeta) : Prop :=
  ∀ k, cap < total - (sizes (rows.take (lruPage * k)) +
      sizes (free held ((rows.drop (lruPage * k)).take lruPage))) →
    kept held ((rows.drop (lruPage * k)).take lruPage) ≠ [] →
      free held (rows.drop (lruPage * (k + 1))) = []

theorem pagesFree_step (total : ℕ) (rows : List ArtifactMeta) :
    PagesFree held cap total rows ↔
      (cap < total - sizes (free held (rows.take lruPage)) → kept held (rows.take lruPage) ≠ [] →
        free held (rows.drop lruPage) = []) ∧
      PagesFree held cap (total - sizes (rows.take lruPage)) (rows.drop lruPage) := by
  have hnext : ∀ k, rows.take (lruPage * (k + 1)) =
      rows.take lruPage ++ (rows.drop lruPage).take (lruPage * k) := by
    intro k
    rw [Nat.mul_succ, Nat.add_comm, List.take_add]
  have hrest : ∀ k, rows.drop (lruPage * (k + 1)) = (rows.drop lruPage).drop (lruPage * k) := by
    intro k
    rw [List.drop_drop, Nat.mul_succ, Nat.add_comm]
  constructor
  · intro h
    refine ⟨?_, ?_⟩
    · have h0 := h 0
      simpa [sizes] using h0
    · intro k
      have hk := h (k + 1)
      rw [hnext, sizes_append, hrest, hrest, Nat.add_assoc, ← Nat.sub_sub] at hk
      exact hk
  · rintro ⟨h0, h⟩ k
    cases k with
    | zero => simpa [sizes] using h0
    | succ k =>
      rw [hnext, sizes_append, hrest, hrest, Nat.add_assoc, ← Nat.sub_sub]
      exact h k

theorem isHeld_free {rows : List ArtifactMeta} {row : ArtifactMeta} (h : row ∈ free held rows) :
    isHeld held row = false := by
  simpa using (List.mem_filter.mp h).2

theorem free_append (rows rows' : List ArtifactMeta) :
    free held (rows ++ rows') = free held rows ++ free held rows' :=
  List.filter_append ..

theorem lt_of_evictUntil {total : ℕ} {rows before after : List ArtifactMeta} {row : ArtifactMeta}
    (h : evictUntil cap total rows = before ++ row :: after) : cap < total := by
  by_contra hle
  rw [evictUntil_of_le (Nat.not_lt.mp hle)] at h
  exact List.append_ne_nil_of_right_ne_nil before (List.cons_ne_nil row after) h.symm

/-- A list that leaves the total over the cap goes as a whole. -/
theorem evictUntil_all {total : ℕ} {rows : List ArtifactMeta} (h : cap < total - sizes rows) :
    evictUntil cap total rows = rows := by
  refine (evictUntil_spec total rows).resolve_left ?_
  obtain ⟨rest, hrest⟩ := evictUntil_first total rows
  have hsizes := sizes_append (evictUntil cap total rows) rest
  rw [hrest] at hsizes
  omega

theorem evictUntil_eq_self {total : ℕ} {rows : List ArtifactMeta}
    (h : cap < total - sizes (evictUntil cap total rows)) : evictUntil cap total rows = rows :=
  (evictUntil_spec total rows).resolve_left (Nat.not_le.mpr h)

/-- Where an element of two joined lists stands. -/
theorem split_append {α : Type*} {xs ys before after : List α} {a : α}
    (h : xs ++ ys = before ++ a :: after) :
    (∃ c, before = xs ++ c ∧ ys = c ++ a :: after) ∨
      ∃ c, xs = before ++ a :: c ∧ after = c ++ ys := by
  rcases List.append_eq_append_iff.mp h with ⟨c, hbefore, hys⟩ | ⟨c, hxs, hafter⟩
  · exact .inl ⟨c, hbefore, hys⟩
  · rcases List.cons_eq_append_iff.mp hafter with ⟨rfl, hys⟩ | ⟨c', rfl, hrest⟩
    · exact .inl ⟨[], by rw [hxs, List.append_nil, List.append_nil], hys⟩
    · exact .inr ⟨c', hxs, hrest⟩

theorem evictUntil_page {total : ℕ} {rows : List ArtifactMeta}
    (h : cap < total - sizes (rows.take lruPage)) :
    evictUntil cap total (presentFirst held (rows.take lruPage)) =
      presentFirst held (rows.take lruPage) :=
  evictUntil_all (by rwa [sizes_perm (presentFirst_perm _)])

/-- The present rows of a page go before its lost ones, so a lost row goes just when the
present ones are not enough. -/
theorem spares_step {total : ℕ} {rows : List ArtifactMeta} (hnodup : rows.Nodup)
    (hrows : rows ≠ []) :
    Spares held rows (evictUntil cap total (pageOrder held rows)) ↔
      (cap < total - sizes (free held (rows.take lruPage)) → kept held (rows.take lruPage) ≠ [] →
        free held (rows.drop lruPage) = []) ∧
      Spares held (rows.drop lruPage) (evictUntil cap (total - sizes (rows.take lruPage))
        (pageOrder held (rows.drop lruPage))) := by
  have hfree : free held rows = free held (rows.take lruPage) ++ free held (rows.drop lruPage) := by
    rw [← free_append, List.take_append_drop]
  have hdisjoint : ∀ row ∈ free held (rows.drop lruPage), row ∉ rows.take lruPage := by
    intro row hrow htake
    rw [← List.take_append_drop lruPage rows] at hnodup
    exact (List.nodup_append.mp hnodup).2.2 row htake row (List.mem_of_mem_filter hrow) rfl
  have hpage : presentFirst held (rows.take lruPage) =
      free held (rows.take lruPage) ++ kept held (rows.take lruPage) := rfl
  rw [pageOrder, if_neg hrows]
  constructor
  · intro h
    refine ⟨?_, ?_⟩
    · intro hcap hkept
      obtain ⟨lost, others, hlost⟩ := List.exists_cons_of_ne_nil hkept
      rw [evictUntil_append, hpage, evictUntil_append, evictUntil_all hcap, hlost, evictUntil,
        if_neg (Nat.not_le.mpr hcap), List.append_assoc, List.cons_append] at h
      rw [List.eq_nil_iff_forall_not_mem]
      intro row hrow
      have hheld : isHeld held lost = true := by
        have hmem : lost ∈ kept held (rows.take lruPage) := hlost ▸ List.mem_cons_self
        exact (List.mem_filter.mp hmem).2
      have hbefore := h _ lost _ rfl hheld row (hfree ▸ List.mem_append_right _ hrow)
      exact hdisjoint row hrow (List.mem_of_mem_filter hbefore)
    · intro before lost after heq hheld row hrow
      have hcap := lt_of_evictUntil heq
      rw [evictUntil_append, evictUntil_page hcap, sizes_perm (presentFirst_perm _), heq,
        ← List.append_assoc] at h
      have hmem := h _ lost after rfl hheld row (hfree ▸ List.mem_append_right _ hrow)
      refine (List.mem_append.mp hmem).resolve_left ?_
      intro hpresent
      exact hdisjoint row hrow ((presentFirst_perm _).mem_iff.mp hpresent)
  · rintro ⟨hfirst, hlater⟩ before lost after heq hheld row hrow
    rw [hfree, List.mem_append] at hrow
    rw [evictUntil_append] at heq
    rcases split_append heq with ⟨c, rfl, hrest⟩ | ⟨c, hin, -⟩
    · have hall := evictUntil_eq_self (lt_of_evictUntil hrest)
      rw [hall, sizes_perm (presentFirst_perm _)] at hrest
      rw [hall, hpage]
      rcases hrow with hpresent | hlate
      · exact List.mem_append_left _ (List.mem_append_left _ hpresent)
      · exact List.mem_append_right _ (hlater c lost after hrest hheld row hlate)
    · rw [hpage, evictUntil_append] at hin
      rcases split_append hin with ⟨c', rfl, hkept⟩ | ⟨c', hfreed, -⟩
      · have hall := evictUntil_eq_self (lt_of_evictUntil hkept)
        have hcap := lt_of_evictUntil hkept
        rw [hall] at hcap ⊢
        have hne : kept held (rows.take lruPage) ≠ [] := by
          intro hnil
          rw [hnil] at hkept
          exact List.append_ne_nil_of_right_ne_nil c' (List.cons_ne_nil lost c) hkept.symm
        rcases hrow with hpresent | hlate
        · exact List.mem_append_left _ hpresent
        · rw [hfirst hcap hne] at hlate
          exact absurd hlate List.not_mem_nil
      · have hmem : lost ∈ free held (rows.take lruPage) :=
          (evictUntil_first total _).subset (hfreed ▸ List.mem_append_right _ List.mem_cons_self)
        rw [isHeld_free hmem] at hheld
        cases hheld

theorem spares_iff {total : ℕ} {rows : List ArtifactMeta} (hnodup : rows.Nodup) :
    Spares held rows (evictUntil cap total (pageOrder held rows)) ↔
      PagesFree held cap total rows := by
  induction rows using pageOrder.induct generalizing total with
  | case1 =>
    refine iff_of_true ?_ ?_
    · intro before lost after _ _ row hrow
      cases hrow
    · intro k _ _
      rw [List.drop_nil]
      rfl
  | case2 rows hne ih =>
    rw [spares_step hnodup hne, pagesFree_step,
      ih (hnodup.sublist (List.drop_sublist lruPage rows))]

end Spared

section Remainder

theorem sizes_filter_notMem {rows dropped : List ArtifactMeta} (hrows : rows.Nodup)
    (hdropped : dropped.Nodup) (hsub : ∀ row ∈ dropped, row ∈ rows) :
    sizes dropped + sizes (rows.filter fun row => !decide (row ∈ dropped)) = sizes rows := by
  have hgone : (rows.filter fun row => decide (row ∈ dropped)).Perm dropped := by
    refine (List.perm_ext_iff_of_nodup (hrows.filter _) hdropped).mpr ?_
    intro row
    rw [List.mem_filter, decide_eq_true_eq]
    exact and_iff_right_of_imp (hsub row)
  rw [← sizes_perm hgone, ← sizes_append]
  exact sizes_perm (List.filter_append_perm _ rows)

/-- What is left when the loop ends is at the cap, or nothing is left. -/
theorem remainder_le {service : EvictionService} {cap : ℕ} {s : Run}
    (hlive : s.report.dryRun = false) {dropped : List ArtifactMeta}
    (hdropped : dropped = evictUntil cap (s.table.totalSizeBytes service.config.registry)
      (pageOrder service.held (s.table.lruRows service.config.registry))) :
    (takeAll .lru dropped s).table.totalSizeBytes service.config.registry ≤ cap ∨
      (takeAll .lru dropped s).table.listArtifacts service.config.registry = [] := by
  have hrows := nodup_lruRows s.table service.config.registry
  have hperm : (pageOrder service.held (s.table.lruRows service.config.registry)).Perm _ :=
    pageOrder_perm _
  have hpage : dropped <+: pageOrder service.held (s.table.lruRows service.config.registry) :=
    hdropped ▸ evictUntil_first _ _
  have hsub : ∀ row ∈ dropped, row ∈ s.table.lruRows service.config.registry :=
    fun row hrow => hperm.mem_iff.mp (hpage.subset hrow)
  have htable : ∀ row ∈ dropped, row ∈ s.table.rows :=
    fun row hrow => (mem_lruRows.mp (hsub row hrow)).1
  have hleft : (takeAll .lru dropped s).table.lruRows service.config.registry =
      (s.table.lruRows service.config.registry).filter fun row => !decide (row ∈ dropped) :=
    takeAll_lruRows hlive service.config.registry htable
  have hspec : s.table.totalSizeBytes service.config.registry - sizes dropped ≤ cap ∨
      dropped = pageOrder service.held (s.table.lruRows service.config.registry) :=
    hdropped ▸ evictUntil_spec _ _
  rcases hspec with hle | hall
  · left
    have hsum := sizes_filter_notMem hrows
      ((hperm.nodup_iff.mpr hrows).sublist hpage.sublist) hsub
    rw [totalSizeBytes_eq] at hle ⊢
    rw [hleft]
    omega
  · right
    have hnone : (takeAll .lru dropped s).table.lruRows service.config.registry = [] := by
      rw [hleft, List.filter_eq_nil_iff]
      intro row hrow
      have hmem : row ∈ dropped := hall ▸ hperm.mem_iff.mpr hrow
      simp [hmem]
    exact List.perm_nil.mp (hnone ▸ (List.perm_insertionSort _ _).symm)

end Remainder

section Termination
variable {service : EvictionService} {cap k : ℕ}

/-- From the `k`-th drop of a run on, no failed delete of a row is of a row without a size. -/
def SizedDrops (service : EvictionService) (k : ℕ) (s : Run) : Prop :=
  ∀ i e, k ≤ i → s.log[i]? = some e → e.row.size = 0 → service.faults i e.row ≠ .metadata

theorem SizedDrops.of_extends {strategy : Strategy} {rows : ArtifactMeta → Prop} {s s' : Run}
    (h : SizedDrops service k s') (hext : Extends strategy rows s s') : SizedDrops service k s := by
  obtain ⟨entries, hlog, -⟩ := hext.log
  intro i e hi he
  refine h i e hi ?_
  rw [hlog, List.getElem?_append_left (List.getElem?_eq_some_iff.mp he).1]
  exact he

/-- What the loop uses up: the drops before the `k`-th, the total and the rows. -/
def budget (k total : ℕ) (s : Run) : ℕ := k - s.log.length + total + s.table.rows.length

theorem length_deleteArtifactMeta {table : ArtifactTable} {row : ArtifactMeta}
    (h : row ∈ table.rows) :
    (table.deleteArtifactMeta row.artifactKey).rows.length < table.rows.length :=
  List.length_filter_lt_length_iff_exists.mpr ⟨row, h, by simp⟩

theorem mem_deleteArtifactMeta {table : ArtifactTable} {row : ArtifactMeta} {key : String}
    (h : row ∈ table.rows) (hkey : row.artifactKey ≠ key) :
    row ∈ (table.deleteArtifactMeta key).rows :=
  List.mem_filter.mpr ⟨h, by simp [hkey]⟩

/-- One drop of a live run: what is counted uses something up, and every other row stays. -/
theorem dropArtifact_budget {row : ArtifactMeta} {s : Run} (hlive : s.report.dryRun = false)
    (hsized : SizedDrops service k (dropArtifact service row .lru s).2)
    (hrow : row ∈ s.table.rows) {total : ℕ} (htotal : 0 < total) :
    ((dropArtifact service row .lru s).1 = true →
      budget k (total - row.size) (dropArtifact service row .lru s).2 < budget k total s) ∧
    budget k total (dropArtifact service row .lru s).2 ≤ budget k total s ∧
    ∀ r ∈ s.table.rows, r.artifactKey ≠ row.artifactKey →
      r ∈ (dropArtifact service row .lru s).2.table.rows := by
  have hlength := length_deleteArtifactMeta hrow
  obtain ⟨deleted, hlog, hcase⟩ := dropArtifact_live service row .lru hlive
  have hnext : k ≤ s.log.length → row.size = 0 → service.faults s.log.length row ≠ .metadata := by
    intro hk
    refine hsized s.log.length ⟨.lru, row, deleted⟩ hk ?_
    rw [hlog, List.getElem?_concat_length]
  unfold budget
  rw [hlog, List.length_append, List.length_singleton]
  rcases hcase with ⟨-, -, hcount, htable⟩ | ⟨-, hfault, -, htable⟩ | ⟨-, -, -, htable⟩
  · rw [hcount, htable]
    exact ⟨fun hfalse => absurd hfalse Bool.false_ne_true, by omega, fun r hr _ => hr⟩
  · rw [htable]
    refine ⟨fun _ => ?_, by omega, fun r hr _ => hr⟩
    by_cases hk : k ≤ s.log.length
    · have hsize : row.size ≠ 0 := fun hzero => hnext hk hzero hfault
      omega
    · omega
  · rw [htable]
    exact ⟨fun _ => by omega, by omega, fun r hr hkey => mem_deleteArtifactMeta hr hkey⟩

/-- Every counted drop of a batch uses something up. -/
theorem evictCandidates_budget (candidates : List ArtifactMeta) (b : Batch)
    (hlive : b.run.report.dryRun = false)
    (hsized : SizedDrops service k (evictCandidates service cap candidates b).run)
    (hkeys : (candidates.map ArtifactMeta.artifactKey).Nodup)
    (hrows : ∀ row ∈ candidates, row ∈ b.run.table.rows) :
    budget k (evictCandidates service cap candidates b).total
        (evictCandidates service cap candidates b).run +
      (evictCandidates service cap candidates b).count ≤ budget k b.total b.run + b.count := by
  induction candidates generalizing b with
  | nil => exact le_rfl
  | cons row candidates ih =>
    unfold evictCandidates at hsized ⊢
    split
    · exact le_rfl
    · rename_i hcap
      rw [if_neg hcap] at hsized
      dsimp only at hsized ⊢
      rw [List.map_cons, List.nodup_cons] at hkeys
      have hlive' := (dropArtifact_extends service row .lru b.run).dryRun.trans hlive
      have hdropped : SizedDrops service k (dropArtifact service row .lru b.run).2 := by
        split at hsized
        · exact hsized.of_extends (evictCandidates_extends service cap candidates ⟨_, _, _, _⟩)
        · exact hsized.of_extends (evictCandidates_extends service cap candidates ⟨_, _, _, _⟩)
      obtain ⟨hcounted, hany, hother⟩ := dropArtifact_budget hlive hdropped
        (hrows row List.mem_cons_self) (Nat.zero_lt_of_lt (Nat.not_le.mp hcap))
      have hrows' : ∀ r ∈ candidates, r ∈ (dropArtifact service row .lru b.run).2.table.rows := by
        intro r hr
        refine hother r (hrows r (List.mem_cons_of_mem row hr)) ?_
        intro hkey
        exact hkeys.1 (hkey ▸ List.mem_map_of_mem hr)
      split
      · rename_i hdrop
        rw [if_pos hdrop] at hsized
        have hrest := ih ⟨_, _, _, (dropArtifact service row .lru b.run).2⟩ hlive' hsized hkeys.2
          hrows'
        have hless := hcounted hdrop
        dsimp only at hrest
        omega
      · rename_i hdrop
        rw [if_neg hdrop] at hsized
        have hrest := ih ⟨_, _, _, (dropArtifact service row .lru b.run).2⟩ hlive' hsized hkeys.2
          hrows'
        dsimp only at hrest
        omega

theorem keys_listLru (table : ArtifactTable) (registry : String) (limit : ℕ) :
    ((table.listLru registry limit).map ArtifactMeta.artifactKey).Nodup := by
  have hperm : ((table.listArtifacts registry).insertionSort ArtifactTable.accessOrder).Perm _ :=
    List.perm_insertionSort _ _
  have hkeys : ((table.listArtifacts registry).map ArtifactMeta.artifactKey).Nodup :=
    table.keys.sublist (List.filter_sublist.map _)
  exact ((hperm.map _).nodup_iff.mpr hkeys).sublist ((List.take_sublist limit _).map _)

/-- A page of the loop uses up at least what it counts. -/
theorem evictLruBatch_budget {total : ℕ} {s : Run} {limit : ℕ} {registry : String}
    (hlive : s.report.dryRun = false)
    (hsized : SizedDrops service k
      (evictLruBatch service (s.table.listLru registry limit) total cap s).2.2) :
    budget k (evictLruBatch service (s.table.listLru registry limit) total cap s).2.1
        (evictLruBatch service (s.table.listLru registry limit) total cap s).2.2 +
      (evictLruBatch service (s.table.listLru registry limit) total cap s).1 ≤
        budget k total s := by
  have hperm : (presentFirst service.held (s.table.listLru registry limit)).Perm _ :=
    presentFirst_perm _
  have hrun : SizedDrops service k (evictCandidates service cap
      (presentFirst service.held (s.table.listLru registry limit)) ⟨total, 0, 0, s⟩).run := by
    unfold evictLruBatch at hsized
    dsimp only at hsized
    split at hsized
    · exact hsized
    · exact hsized
  have hbatch : budget k _ _ + _ ≤ budget k total s + 0 :=
    evictCandidates_budget (presentFirst service.held (s.table.listLru registry limit))
      ⟨total, 0, 0, s⟩ hlive hrun
      ((hperm.map _).nodup_iff.mpr (keys_listLru s.table registry limit))
      (fun row hrow => (mem_listLru (hperm.mem_iff.mp hrow)).1)
  unfold evictLruBatch
  dsimp only
  split
  · exact hbatch
  · exact hbatch

/-- With enough fuel for what it uses up, the loop ends. -/
theorem lruLoop_finished {fuel total count : ℕ} {s : Run} (hlive : s.report.dryRun = false)
    (hsized : SizedDrops service k (lruLoop service cap fuel total count s).2.2)
    (hfuel : budget k total s < fuel) :
    (lruLoop service cap fuel total count s).1 = .finished := by
  induction fuel generalizing total count s with
  | zero => exact absurd hfuel (Nat.not_lt_zero _)
  | succ fuel ih =>
    unfold lruLoop at hsized ⊢
    split
    · rfl
    · rename_i hcap
      rw [if_neg hcap] at hsized
      dsimp only at hsized ⊢
      split
      · rfl
      · rename_i hpage
        rw [if_neg hpage] at hsized
        split
        · rfl
        · rename_i hbatch
          rw [if_neg hbatch] at hsized
          have hext := evictLruBatch_extends service
            (s.table.listLru service.config.registry lruPage) total cap s
          have hused := evictLruBatch_budget hlive
            (hsized.of_extends (lruLoop_extends service cap fuel _ _ _))
          refine ih (hext.dryRun.trans hlive) hsized ?_
          refine Nat.lt_of_lt_of_le ?_ (Nat.le_of_lt_succ hfuel)
          exact Nat.lt_of_lt_of_le (Nat.lt_add_of_pos_right (Nat.pos_of_ne_zero hbatch)) hused

/-- A loop that has ended is not changed by more fuel. -/
theorem lruLoop_succ_of_finished {fuel total count : ℕ} {s : Run}
    (h : (lruLoop service cap fuel total count s).1 = .finished) :
    lruLoop service cap (fuel + 1) total count s = lruLoop service cap fuel total count s := by
  induction fuel generalizing total count s with
  | zero => cases h
  | succ fuel ih =>
    rw [lruLoop] at h
    rw [lruLoop]
    conv_rhs => rw [lruLoop]
    split
    · rfl
    · rename_i hcap
      rw [if_neg hcap] at h
      dsimp only at h ⊢
      split
      · rfl
      · rename_i hpage
        rw [if_neg hpage] at h
        split
        · rfl
        · rename_i hbatch
          rw [if_neg hbatch] at h
          exact ih h

theorem lruLoop_log_le (fuel total count : ℕ) (s : Run) :
    (lruLoop service cap fuel total count s).2.2.log.length ≤
      (lruLoop service cap (fuel + 1) total count s).2.2.log.length := by
  induction fuel generalizing total count s with
  | zero =>
    obtain ⟨entries, hlog, -⟩ := (lruLoop_extends service cap 1 total count s).log
    rw [hlog, List.length_append]
    exact Nat.le_add_right ..
  | succ fuel ih =>
    rw [lruLoop]
    conv_rhs => rw [lruLoop]
    split
    · exact le_rfl
    · dsimp only
      split
      · exact le_rfl
      · split
        · exact le_rfl
        · exact ih ..

/-- The drops of a loop that ends are bounded, whatever fuel it is given. -/
theorem lruLoop_log_bounded {fuel total count : ℕ} {s : Run}
    (h : (lruLoop service cap fuel total count s).1 = .finished) (fuel' : ℕ) :
    (lruLoop service cap fuel' total count s).2.2.log.length ≤
      (lruLoop service cap fuel total count s).2.2.log.length := by
  rcases Nat.le_total fuel' fuel with hle | hle
  · exact monotone_nat_of_le_succ
      (f := fun n => (lruLoop service cap n total count s).2.2.log.length)
      (fun n => lruLoop_log_le n total count s) hle
  · have hsame : lruLoop service cap fuel' total count s =
        lruLoop service cap fuel total count s := by
      induction hle with
      | refl => rfl
      | step _ ih => rw [lruLoop_succ_of_finished (ih ▸ h), ih]
    rw [hsame]

/-- The loop ends when from some drop on no failed delete of a row is of a row without a size,
and not otherwise. -/
theorem lruLoop_ends_iff (total count : ℕ) {s : Run} (hlive : s.report.dryRun = false) :
    (∃ k, ∀ fuel, SizedDrops service k (lruLoop service cap fuel total count s).2.2) ↔
      ∃ fuel, (lruLoop service cap fuel total count s).1 = .finished := by
  constructor
  · rintro ⟨k, hsized⟩
    exact ⟨budget k total s + 1, lruLoop_finished hlive (hsized _) (Nat.lt_succ_self _)⟩
  · rintro ⟨fuel, hfinished⟩
    refine ⟨(lruLoop service cap fuel total count s).2.2.log.length, ?_⟩
    intro fuel' i e hi he
    have hlt := (List.getElem?_eq_some_iff.mp he).1
    exact absurd hi (Nat.not_le.mpr (hlt.trans_le (lruLoop_log_bounded hfinished fuel')))

end Termination

section Strategy
variable {service : EvictionService} {s : Run} {cap : ℕ}

/-- Over the cap a live run of the strategy is the loop. -/
theorem runLruSizeCap_live (hcap : service.config.maxSizeBytes = some cap)
    (hlive : s.report.dryRun = false)
    (hover : cap < s.table.totalSizeBytes service.config.registry) (fuel : ℕ) :
    (runLruSizeCap service fuel s).1 = (lruLoop service cap fuel
        (s.table.totalSizeBytes service.config.registry) 0 s).1 ∧
      (runLruSizeCap service fuel s).2.log = (lruLoop service cap fuel
        (s.table.totalSizeBytes service.config.registry) 0 s).2.2.log ∧
      (runLruSizeCap service fuel s).2.table = (lruLoop service cap fuel
        (s.table.totalSizeBytes service.config.registry) 0 s).2.2.table := by
  unfold runLruSizeCap
  rw [hcap]
  dsimp only
  rw [if_neg (Nat.not_le.mpr hover), hlive, if_neg Bool.false_ne_true]
  generalize lruLoop service cap fuel (s.table.totalSizeBytes service.config.registry) 0 s = result
  obtain ⟨ending, count, s'⟩ := result
  cases ending with
  | finished => exact ⟨rfl, rfl, rfl⟩
  | panicked => exact ⟨rfl, rfl, rfl⟩
  | looping => exact ⟨rfl, rfl, rfl⟩

/-- At the cap the strategy does nothing. -/
theorem runLruSizeCap_le (hcap : service.config.maxSizeBytes = some cap)
    (hunder : s.table.totalSizeBytes service.config.registry ≤ cap) (fuel : ℕ) :
    runLruSizeCap service fuel s = counted .lru (0, s) := by
  unfold runLruSizeCap
  rw [hcap]
  dsimp only
  rw [if_pos hunder]

theorem runLruSizeCap_ends_iff (hcap : service.config.maxSizeBytes = some cap)
    (hlive : s.report.dryRun = false) :
    (∃ k, ∀ fuel, SizedDrops service k (runLruSizeCap service fuel s).2) ↔
      ∃ fuel, (runLruSizeCap service fuel s).1 = .finished := by
  by_cases hunder : s.table.totalSizeBytes service.config.registry ≤ cap
  · refine iff_of_true ⟨s.log.length, ?_⟩ ⟨0, ?_⟩
    · intro fuel i e hi he
      rw [runLruSizeCap_le hcap hunder] at he
      exact absurd hi (Nat.not_le.mpr (List.getElem?_eq_some_iff.mp he).1)
    · rw [runLruSizeCap_le hcap hunder]
      rfl
  · have hrun := runLruSizeCap_live hcap hlive (Nat.not_le.mp hunder)
    have hloop : (∃ k, ∀ fuel, SizedDrops service k (lruLoop service cap fuel _ 0 s).2.2) ↔ _ :=
      lruLoop_ends_iff (s.table.totalSizeBytes service.config.registry) 0 hlive
    unfold SizedDrops at hloop ⊢
    simp only [(hrun _).1, (hrun _).2.1]
    exact hloop

/-- Without failures the strategy drops rows in page order until the total is at the cap. -/
theorem runLruSizeCap_works (hcap : service.config.maxSizeBytes = some cap)
    (hlive : s.report.dryRun = false) (h : Works service s) {dropped : List ArtifactMeta}
    (hdropped : dropped = evictUntil cap (s.table.totalSizeBytes service.config.registry)
      (pageOrder service.held (s.table.lruRows service.config.registry))) :
    ∃ fuel, (runLruSizeCap service fuel s).1 = .finished ∧
      (runLruSizeCap service fuel s).2.log = s.log ++ dropped.map (Entry.mk .lru · true) ∧
      (runLruSizeCap service fuel s).2.table = (takeAll .lru dropped s).table := by
  by_cases hunder : s.table.totalSizeBytes service.config.registry ≤ cap
  · rw [evictUntil_of_le hunder] at hdropped
    subst hdropped
    refine ⟨0, ?_⟩
    rw [runLruSizeCap_le hcap hunder]
    exact ⟨rfl, (List.append_nil _).symm, rfl⟩
  · have hn : lruLoop service cap _ _ 0 s = _ :=
      lruLoop_eq _ (s.table.totalSizeBytes service.config.registry) 0 h hlive rfl
        (Nat.lt_succ_self _)
    rw [← hdropped] at hn
    refine ⟨(s.table.lruRows service.config.registry).length + 1, ?_⟩
    obtain ⟨hending, hlog, htable⟩ := runLruSizeCap_live hcap hlive (Nat.not_le.mp hunder) _
    rw [hending, hlog, htable, hn]
    refine ⟨rfl, ?_, rfl⟩
    have htaken := takeAll_log .lru dropped s
    rw [hlive] at htaken
    exact htaken

/-- A live run of the size cap ends exactly when from some drop on no failed delete of a row is
of a row without a size. Without failures it stops at the cap or with nothing left, and a lost
artifact goes before a present one exactly when a page over the cap without its present ones
holds a lost one and a later page a present one. -/
theorem size_cap_ends_and_spares_iff (service : EvictionService) (s : Run) (cap : ℕ)
    (hcap : service.config.maxSizeBytes = some cap) (hlive : s.report.dryRun = false) :
    ((∃ k, ∀ fuel, SizedDrops service k (runLruSizeCap service fuel s).2) ↔
      ∃ fuel, (runLruSizeCap service fuel s).1 = .finished) ∧
    (Works service s → ∃ fuel dropped, (runLruSizeCap service fuel s).1 = .finished ∧
      (runLruSizeCap service fuel s).2.log = s.log ++ dropped.map (Entry.mk .lru · true) ∧
      ((runLruSizeCap service fuel s).2.table.totalSizeBytes service.config.registry ≤ cap ∨
        (runLruSizeCap service fuel s).2.table.listArtifacts service.config.registry = []) ∧
      (Spares service.held (s.table.lruRows service.config.registry) dropped ↔
        PagesFree service.held cap (s.table.totalSizeBytes service.config.registry)
          (s.table.lruRows service.config.registry))) := by
  refine ⟨runLruSizeCap_ends_iff hcap hlive, ?_⟩
  intro h
  obtain ⟨fuel, hending, hlog, htable⟩ := runLruSizeCap_works hcap hlive h rfl
  refine ⟨fuel, _, hending, hlog, ?_, spares_iff (nodup_lruRows _ _)⟩
  rw [htable]
  exact remainder_le hlive rfl

def sizeless : ArtifactMeta := ⟨"r/a", "r", "a", "1", none, 0, 0⟩

def sized : ArtifactMeta := ⟨"r/b", "r", "b", "1", some 10, 0, 1⟩

def bothSizes : ArtifactTable where
  rows := [sizeless, sized]
  keys := by decide
  instants := by decide

/-- The row without a size is never deleted, the bytes of the other never are. -/
def stuckService : EvictionService where
  config := ⟨none, none, some 0, none, "r"⟩
  held := []
  now := 0
  faults := fun _ row => if row.sizeBytes = none then .metadata else .storage

theorem stuckService_batch {s : Run} (htable : s.table = bothSizes)
    (hlive : s.report.dryRun = false) :
    ∃ s' : Run, evictLruBatch stuckService (s.table.listLru "r" lruPage) 10 0 s = (1, 10, s') ∧
      s'.table = bothSizes ∧ s'.report.dryRun = false := by
  have hpage : presentFirst stuckService.held (s.table.listLru "r" lruPage) =
      [sizeless, sized] := by
    rw [htable]
    decide
  obtain ⟨_, -, hfirst⟩ := dropArtifact_live stuckService sizeless .lru hlive
  generalize hs₁ : dropArtifact stuckService sizeless .lru s = r₁ at hfirst
  have hlive₁ : r₁.2.report.dryRun = false :=
    hs₁ ▸ (dropArtifact_extends stuckService sizeless .lru s).dryRun.trans hlive
  obtain ⟨_, -, hsecond⟩ := dropArtifact_live stuckService sized .lru hlive₁
  generalize hs₂ : dropArtifact stuckService sized .lru r₁.2 = r₂ at hsecond
  have hlive₂ : r₂.2.report.dryRun = false :=
    hs₂ ▸ (dropArtifact_extends stuckService sized .lru r₁.2).dryRun.trans hlive₁
  have hcount₁ : r₁.1 = true ∧ r₁.2.table = s.table := by
    rcases hfirst with ⟨-, hfault, -⟩ | ⟨-, -, h⟩ | ⟨-, hfault, -⟩
    · cases hfault
    · exact h
    · cases hfault
  have hcount₂ : r₂.1 = false ∧ r₂.2.table = r₁.2.table := by
    rcases hsecond with ⟨-, -, h⟩ | ⟨-, hfault, -⟩ | ⟨-, hfault, -⟩
    · exact h
    · cases hfault
    · cases hfault
  have hrun : evictCandidates stuckService 0 [sizeless, sized] ⟨10, 0, 0, s⟩ =
      ⟨10, 1, 0, r₂.2⟩ := by
    have hover : ¬ 10 ≤ 0 := by decide
    rw [evictCandidates, if_neg hover]
    dsimp only
    rw [hs₁, if_pos hcount₁.1, evictCandidates, if_neg (by exact hover)]
    dsimp only
    rw [hs₂, if_neg (by rw [hcount₂.1]; decide)]
    rfl
  refine ⟨r₂.2, ?_, hcount₂.2.trans (hcount₁.2.trans htable), hlive₂⟩
  rw [evictLruBatch, hpage, hrun]
  rfl

theorem stuckService_loops (fuel count : ℕ) {s : Run} (htable : s.table = bothSizes)
    (hlive : s.report.dryRun = false) :
    (lruLoop stuckService 0 fuel 10 count s).1 = .looping := by
  induction fuel generalizing count s with
  | zero => rfl
  | succ fuel ih =>
    obtain ⟨s', hbatch, htable', hlive'⟩ := stuckService_batch htable hlive
    have hpage : (s.table.listLru "r" lruPage).isEmpty = false := by
      rw [htable]
      decide
    have hnext := ih (count + 1) htable' hlive'
    rw [lruLoop, if_neg (by decide)]
    dsimp only [stuckService] at hbatch hnext ⊢
    rw [hpage, hbatch, if_neg Bool.false_ne_true]
    exact hnext

/-- Of 257 artifacts of one byte, upstream has lost all but the last accessed. -/
def pageRow (i : ℕ) : ArtifactMeta :=
  ⟨String.ofList (List.replicate i 'a'), "r", if i < lruPage then "lost" else "present", "1",
    some 1, 0, (i : ℤ)⟩

theorem pageRow_key {i j : ℕ} (h : (pageRow i).artifactKey = (pageRow j).artifactKey) : i = j := by
  have hlength := congrArg (fun key => key.toList.length) h
  simpa [pageRow] using hlength

def pageAndOne : ArtifactTable where
  rows := (List.range (lruPage + 1)).map pageRow
  keys := by
    rw [List.map_map]
    exact List.nodup_range.map fun i j => pageRow_key
  instants := by
    intro row hrow
    obtain ⟨i, hi, rfl⟩ := List.mem_map.mp hrow
    have hlt := List.mem_range.mp hi
    rw [lruPage] at hlt
    have hlast : (0 : ℤ) ≤ i ∧ (i : ℤ) ≤ 256 := by omega
    have hrange : Instants.minUtc ≤ 0 ∧ 256 ≤ Instants.maxUtc := by decide
    have hcached : Instants.Representable 0 := by decide
    exact ⟨hcached, hrange.1.trans hlast.1, hlast.2.trans hrange.2⟩

def pageService : EvictionService where
  config := ⟨none, none, some 256, none, "r"⟩
  held := ["lost"]
  now := 0
  faults := fun _ _ => .none

theorem lruRows_pageAndOne : pageAndOne.lruRows "r" = (List.range (lruPage + 1)).map pageRow := by
  have hscope : pageAndOne.listArtifacts "r" = (List.range (lruPage + 1)).map pageRow := by
    refine List.filter_eq_self.mpr ?_
    intro row hrow
    obtain ⟨i, -, rfl⟩ := List.mem_map.mp hrow
    rfl
  rw [ArtifactTable.lruRows, hscope]
  refine List.Pairwise.insertionSort_eq ?_
  rw [List.pairwise_map]
  refine List.pairwise_lt_range.imp ?_
  intro i j hlt
  exact Int.ofNat_le.mpr (Nat.le_of_lt hlt)

theorem isHeld_pageRow {i : ℕ} (h : i < lruPage) : isHeld pageService.held (pageRow i) = true := by
  unfold pageRow
  rw [if_pos h]
  rfl

/-- The one present artifact is on the second page, and one byte too many is on the first. -/
theorem not_pagesFree_pageAndOne :
    ¬ PagesFree pageService.held 256 (pageAndOne.totalSizeBytes "r") (pageAndOne.lruRows "r") := by
  have hsizes : ∀ n, sizes ((List.range n).map pageRow) = n := by
    intro n
    rw [sizes, List.map_map]
    induction n with
    | zero => rfl
    | succ n ih =>
      rw [List.range_succ, List.map_append, List.sum_append, ih]
      rfl
  have hpage : ((List.range (lruPage + 1)).map pageRow).take lruPage =
      (List.range lruPage).map pageRow := by
    rw [List.range_succ, List.map_append]
    exact List.take_left' (by rw [List.length_map, List.length_range])
  have hheld : ∀ row ∈ (List.range lruPage).map pageRow,
      isHeld pageService.held row = true := by
    intro row hrow
    obtain ⟨i, hi, rfl⟩ := List.mem_map.mp hrow
    exact isHeld_pageRow (List.mem_range.mp hi)
  intro h
  have hfirst := h 0
  rw [totalSizeBytes_eq, lruRows_pageAndOne, hsizes, Nat.mul_zero, List.take_zero, List.drop_zero,
    hpage, Nat.zero_add, Nat.mul_one] at hfirst
  have hnone : free pageService.held ((List.range lruPage).map pageRow) = [] := by
    refine List.filter_eq_nil_iff.mpr ?_
    intro row hrow
    rw [hheld row hrow]
    decide
  have hall : kept pageService.held ((List.range lruPage).map pageRow) =
      (List.range lruPage).map pageRow :=
    List.filter_eq_self.mpr hheld
  rw [hnone, hall] at hfirst
  have hdrop : ((List.range (lruPage + 1)).map pageRow).drop lruPage = [pageRow lruPage] := by
    rw [List.range_succ, List.map_append]
    exact List.drop_left' (by rw [List.length_map, List.length_range])
  have hlast : free pageService.held (((List.range (lruPage + 1)).map pageRow).drop lruPage) =
      [pageRow lruPage] := by
    rw [hdrop]
    rfl
  rw [hlast] at hfirst
  exact absurd (hfirst (by decide) (by decide)) (List.cons_ne_nil _ _)

/-- Two artifacts keep the loop going for ever, and an artifact upstream has lost goes while a
present one stays on the next page. -/
theorem size_cap_loops_and_drops_lost :
    (∀ fuel, (runLruSizeCap stuckService fuel (Run.start bothSizes [] false)).1 = .looping) ∧
    ∃ fuel dropped, (runLruSizeCap pageService fuel (Run.start pageAndOne [] false)).1 = .finished ∧
      (runLruSizeCap pageService fuel (Run.start pageAndOne [] false)).2.log =
        dropped.map (Entry.mk .lru · true) ∧
      ¬ Spares pageService.held (pageAndOne.lruRows "r") dropped := by
  refine ⟨?_, ?_⟩
  · intro fuel
    have hlive : (runLruSizeCap stuckService fuel (Run.start bothSizes [] false)).1 =
        (lruLoop stuckService 0 fuel 10 0 _).1 :=
      (runLruSizeCap_live rfl rfl (by decide) fuel).1
    rw [hlive]
    exact stuckService_loops fuel 0 rfl rfl
  · have hworks : Works pageService (Run.start pageAndOne [] false) := fun _ _ _ => rfl
    obtain ⟨fuel, hending, hlog, -⟩ := runLruSizeCap_works rfl rfl hworks rfl
    refine ⟨fuel, _, hending, hlog, ?_⟩
    rw [show pageService.config.registry = "r" from rfl]
    exact fun hspares => not_pagesFree_pageAndOne ((spares_iff (nodup_lruRows _ _)).mp hspares)

theorem size_cap_ends_and_spares_iff_two_pages :
    ((∃ k, ∀ fuel, SizedDrops pageService k
        (runLruSizeCap pageService fuel (Run.start pageAndOne [] false)).2) ↔
      ∃ fuel, (runLruSizeCap pageService fuel (Run.start pageAndOne [] false)).1 = .finished) ∧
    (Works pageService (Run.start pageAndOne [] false) → ∃ fuel dropped,
      (runLruSizeCap pageService fuel (Run.start pageAndOne [] false)).1 = .finished ∧
      (runLruSizeCap pageService fuel (Run.start pageAndOne [] false)).2.log =
        [] ++ dropped.map (Entry.mk .lru · true) ∧
      ((runLruSizeCap pageService fuel (Run.start pageAndOne [] false)).2.table.totalSizeBytes "r" ≤
          256 ∨
        (runLruSizeCap pageService fuel (Run.start pageAndOne [] false)).2.table.listArtifacts "r" =
          []) ∧
      (Spares pageService.held (pageAndOne.lruRows "r") dropped ↔
        PagesFree pageService.held 256 (pageAndOne.totalSizeBytes "r")
          (pageAndOne.lruRows "r"))) :=
  size_cap_ends_and_spares_iff pageService (Run.start pageAndOne [] false) 256 rfl rfl

end Strategy

end BatleHub.Eviction
