import BatleHub.Lib.Runs
import BatleHub.StatsRollup
import Mathlib.Data.List.Induction

/-!
What the statistics conserve. At every moment the rows written, the rows of writes that
failed and the rows still on their way add up to the counters as they were last read. So
nothing is counted twice, and a tick's rows complete the sum when no write failed and no
other tick stands between its reading and its writing.
-/
namespace BatleHub.StatsRollup

open Lib Lib.AssocMap Lib.Slots LocalPackages

section Totals
variable (k : Counter) (registry : String)

@[simp]
theorem total_nil : total k registry [] = 0 := rfl

@[simp]
theorem total_append (rows more : List StatsRollupRow) :
    total k registry (rows ++ more) = total k registry rows + total k registry more := by
  unfold total
  rw [List.filter_append, List.map_append, List.sum_append]

theorem total_cons (row : StatsRollupRow) (rows : List StatsRollupRow) :
    total k registry (row :: rows) =
      (if row.registry = registry then row.get k else 0) + total k registry rows := by
  unfold total
  by_cases h : row.registry = registry
  · rw [List.filter_cons_of_pos (by simpa using h), List.map_cons, List.sum_cons, if_pos h]
  · rw [List.filter_cons_of_neg (by simpa using h), if_neg h, Nat.zero_add]

/-- Merging a row into the history adds what it says. -/
theorem total_upsert (history : List StatsRollupRow) (row : StatsRollupRow) :
    total k registry (upsert history row) =
      total k registry history + total k registry [row] := by
  induction history with
  | nil => rw [upsert, total_nil, Nat.zero_add]
  | cons existing rest ih =>
    rw [upsert]
    split
    · rename_i hkey
      have hmerged : (existing.merge row).registry = existing.registry := rfl
      rw [total_cons, total_cons, total_cons, hmerged, total_nil, hkey.1,
        StatsRollupRow.get_merge]
      split <;> omega
    · rw [total_cons, ih, total_cons k registry existing, Nat.add_assoc]

theorem total_upsertAll (history rows : List StatsRollupRow) :
    total k registry (upsertAll history rows) =
      total k registry history + total k registry rows := by
  unfold upsertAll
  induction rows generalizing history with
  | nil => rw [List.foldl_nil, total_nil, Nat.add_zero]
  | cons row rows ih =>
    rw [List.foldl_cons, ih, total_upsert, Nat.add_assoc, ← total_append, List.singleton_append]

theorem total_pruneBefore_le (history : List StatsRollupRow) (cutoff : DateTime) :
    total k registry (pruneBefore history cutoff) ≤ total k registry history := by
  induction history with
  | nil => exact Nat.le_refl _
  | cons row rest ih =>
    unfold pruneBefore at ih ⊢
    by_cases h : cutoff ≤ row.windowStart
    · rw [List.filter_cons_of_pos (by simpa using h), total_cons, total_cons]
      omega
    · rw [List.filter_cons_of_neg (by simpa using h), total_cons]
      omega

/-- A tick's row says what the counter gained. -/
theorem total_rowOf (now : DateTime) (cached : Assoc String ℕ) (counts prev : Counts)
    (other : String) :
    total k registry [rowOf now cached other counts prev] =
      if other = registry then counts.get k - prev.get k else 0 := by
  rw [total_cons, total_nil, Nat.add_zero]
  have hget : (rowOf now cached other counts prev).get k = counts.get k - prev.get k := by
    cases k <;> rfl
  rw [hget]
  rfl

/-- The rows that ticks have computed and not yet written. -/
def inFlight (ticks : List Tick) : ℕ := (ticks.map fun t => total k registry t.rows).sum

theorem inFlight_append_singleton (ticks : List Tick) (t : Tick) :
    inFlight k registry (ticks ++ [t]) = inFlight k registry ticks + total k registry t.rows := by
  unfold inFlight
  rw [List.map_append, List.sum_append, List.map_singleton, List.sum_singleton]

theorem inFlight_set {ticks : List Tick} {i : ℕ} {old : Tick} (h : ticks[i]? = some old)
    (new : Tick) :
    inFlight k registry (ticks.set i new) + total k registry old.rows =
      inFlight k registry ticks + total k registry new.rows :=
  sum_map_set (fun t : Tick => total k registry t.rows) h

end Totals

section Steps
variable {w w' : World}

/-- What a reading tick has loaded lies between the baseline and the counters. -/
def Loaded (w : World) (registry : String) : Loading → Prop
  | .start => True
  | .hits hits =>
    (w.baselineOf registry).hits ≤ hits ∧ hits ≤ (w.counters registry).hits
  | .misses hits misses =>
    ((w.baselineOf registry).hits ≤ hits ∧ hits ≤ (w.counters registry).hits) ∧
      ((w.baselineOf registry).misses ≤ misses ∧ misses ≤ (w.counters registry).misses)

/-- A reading tick holds the lock, and its loads are sound. -/
def Placed (w : World) (i : ℕ) : Tick → Prop
  | .reading _ _ todo loading _ _ =>
    w.holder = some i ∧ ∀ registry ∈ todo.head?, Loaded w registry loading
  | _ => True

structure Conserved (w : World) : Prop where
  sum : ∀ k registry, total k registry w.appended + total k registry w.lost +
    inFlight k registry w.ticks = (w.baselineOf registry).get k
  behind : ∀ k registry, (w.baselineOf registry).get k ≤ (w.counters registry).get k
  placed : ∀ i t, w.ticks[i]? = some t → Placed w i t
  read : ∀ t ∈ w.ticks, ∀ e ∈ t.read, ∀ k, e.2.get k ≤ (w.baselineOf e.1).get k

theorem conserved_init : Conserved World.init where
  sum k _ := by cases k <;> rfl
  behind _ _ := Nat.le_refl _
  placed i t ht := by simp [World.init] at ht
  read t ht := by simp [World.init] at ht

theorem Loaded.of_le {registry : String} {loading : Loading} (h : Loaded w registry loading)
    (hbaseline : w'.baselineOf registry = w.baselineOf registry)
    (hle : ∀ k, (w.counters registry).get k ≤ (w'.counters registry).get k) :
    Loaded w' registry loading := by
  have hhits : (w.counters registry).hits ≤ (w'.counters registry).hits := hle .hits
  have hmisses : (w.counters registry).misses ≤ (w'.counters registry).misses := hle .misses
  cases loading with
  | start => trivial
  | hits n =>
    obtain ⟨hlow, hhigh⟩ := h
    exact ⟨hbaseline ▸ hlow, hhigh.trans hhits⟩
  | misses n m =>
    obtain ⟨⟨hlow, hhigh⟩, hlow', hhigh'⟩ := h
    exact ⟨⟨hbaseline ▸ hlow, hhigh.trans hhits⟩, hbaseline ▸ hlow', hhigh'.trans hmisses⟩

/-- A tick that moves on without reading a registry to its end: its rows go where the
history and the lost ones say. -/
theorem Conserved.advance (h : Conserved w) {i : ℕ} {old new : Tick}
    (hold : w.ticks[i]? = some old) (hticks : w'.ticks = w.ticks.set i new)
    (hcounters : w'.counters = w.counters) (hbaseline : w'.baseline = w.baseline)
    (hrows : ∀ k registry, total k registry w'.appended + total k registry w'.lost +
      total k registry new.rows = total k registry w.appended + total k registry w.lost +
        total k registry old.rows)
    (hread : new.read = old.read) (hplaced : Placed w' i new)
    (hholder : ∀ j, j ≠ i → w.holder = some j → w'.holder = some j) : Conserved w' := by
  have hbase : ∀ registry, w'.baselineOf registry = w.baselineOf registry := by
    intro registry
    rw [World.baselineOf, hbaseline]
    rfl
  refine ⟨?_, ?_, ?_, ?_⟩
  · intro k registry
    have hsum := h.sum k registry
    have hmoved := inFlight_set k registry hold new
    have hgone := hrows k registry
    rw [hticks, hbase]
    omega
  · intro k registry
    rw [hbase, hcounters]
    exact h.behind k registry
  · intro j t ht
    rw [hticks, List.getElem?_set] at ht
    split at ht
    · rename_i hij
      split at ht
      · obtain rfl := hij
        obtain rfl := Option.some.inj ht
        exact hplaced
      · cases ht
    · rename_i hij
      have hp := h.placed j t ht
      cases t with
      | reading now cached todo loading rows read =>
        refine ⟨hholder j (Ne.symm hij) hp.1, fun registry hregistry => ?_⟩
        refine (hp.2 registry hregistry).of_le (hbase registry) fun k => ?_
        rw [hcounters]
      | waiting _ _ => trivial
      | appending _ _ _ => trivial
      | pruning _ _ _ => trivial
      | done _ _ => trivial
  · intro t ht e he k
    rw [hticks] at ht
    rw [hbase]
    rcases List.mem_or_eq_of_mem_set ht with ht | rfl
    · exact h.read t ht e he k
    · exact h.read old (List.mem_of_getElem? hold) e (hread ▸ he) k

/-- A counted request: only the counters move, and they move up. -/
theorem Conserved.record (h : Conserved w) (registry : String) (counter : Counter) :
    Conserved { w with
      counters := Function.update w.counters registry
        ((w.counters registry).increment counter) } := by
  have hle : ∀ r k, (w.counters r).get k ≤ (Function.update w.counters registry
      ((w.counters registry).increment counter) r).get k := by
    intro r k
    by_cases hr : r = registry
    · subst hr
      rw [Function.update_self]
      exact Counts.get_le_increment _ _ _
    · rw [Function.update_of_ne hr]
  refine ⟨h.sum, fun k r => (h.behind k r).trans (hle r k), ?_, h.read⟩
  intro i t ht
  have hp := h.placed i t ht
  cases t with
  | reading now cached todo loading rows read =>
    exact ⟨hp.1, fun r hr => (hp.2 r hr).of_le rfl (hle r)⟩
  | waiting _ _ => trivial
  | appending _ _ _ => trivial
  | pruning _ _ _ => trivial
  | done _ _ => trivial

theorem Conserved.start (h : Conserved w) (now : DateTime) (cached : Assoc String ℕ) :
    Conserved { w with ticks := w.ticks ++ [.waiting now cached] } := by
  refine ⟨?_, h.behind, ?_, ?_⟩
  · intro k registry
    have hsum := h.sum k registry
    rw [inFlight_append_singleton]
    exact hsum
  · intro i t ht
    rw [List.getElem?_append] at ht
    split at ht
    · have hp := h.placed i t ht
      cases t with
      | reading now cached todo loading rows read => exact hp
      | waiting _ _ => trivial
      | appending _ _ _ => trivial
      | pruning _ _ _ => trivial
      | done _ _ => trivial
    · obtain rfl := List.mem_singleton.mp (List.mem_of_getElem? ht)
      trivial
  · intro t ht
    rcases List.mem_append.mp ht with ht | ht
    · exact h.read t ht
    · obtain rfl := List.mem_singleton.mp ht
      intro e he
      simp [Tick.read] at he

/-- The third load: the baseline takes the counts over, and the row holds the difference. -/
theorem Conserved.complete (h : Conserved w) {i : ℕ} {now : DateTime} {cached : Assoc String ℕ}
    {registry : String} {todo : List String} {hits misses : ℕ} {rows : List StatsRollupRow}
    {read : List (String × Counts)}
    (hold : w.ticks[i]? =
      some (.reading now cached (registry :: todo) (.misses hits misses) rows read))
    {seen : Counts} (hseen : seen = ⟨hits, misses, (w.counters registry).listingReads⟩)
    (hnext : w' = { w with
      baseline := w.baseline.insert registry seen
      ticks := w.ticks.set i (.reading now cached todo .start
        (rows ++ [rowOf now cached registry seen (w.baselineOf registry)])
        (read ++ [(registry, seen)])) }) : Conserved w' := by
  obtain ⟨hholder, hloaded⟩ := h.placed i _ hold
  obtain ⟨⟨hlow, hhigh⟩, hlow', hhigh'⟩ := hloaded registry rfl
  have hgained : ∀ k, (w.baselineOf registry).get k ≤ seen.get k ∧
      seen.get k ≤ (w.counters registry).get k := by
    rw [hseen]
    intro k
    cases k with
    | hits => exact ⟨hlow, hhigh⟩
    | misses => exact ⟨hlow', hhigh'⟩
    | listingReads => exact ⟨h.behind .listingReads registry, Nat.le_refl _⟩
  have hbase : ∀ r, w'.baselineOf r = if r = registry then seen else w.baselineOf r := by
    intro r
    rw [hnext, World.baselineOf, lookup_insert_eq]
    split
    · rfl
    · rfl
  have hticks : w'.ticks = w.ticks.set i (.reading now cached todo .start
      (rows ++ [rowOf now cached registry seen (w.baselineOf registry)])
      (read ++ [(registry, seen)])) := by
    rw [hnext]
  have hcounters : w'.counters = w.counters := by
    rw [hnext]
  have hgrows : ∀ r k, (w.baselineOf r).get k ≤
      (if r = registry then seen else w.baselineOf r).get k := by
    intro r k
    split
    · rename_i hr
      rw [hr]
      exact (hgained k).1
    · exact Nat.le_refl _
  refine ⟨?_, ?_, ?_, ?_⟩
  · intro k r
    have hsum := h.sum k r
    have hmoved := inFlight_set k r hold (.reading now cached todo .start
      (rows ++ [rowOf now cached registry seen (w.baselineOf registry)])
      (read ++ [(registry, seen)]))
    have hgain := hgained k
    have happended : w'.appended = w.appended := by rw [hnext]
    have hlost : w'.lost = w.lost := by rw [hnext]
    rw [Tick.rows, Tick.rows, total_append, total_rowOf] at hmoved
    rw [hbase, hticks, happended, hlost]
    by_cases hr : r = registry
    · obtain rfl := hr
      rw [if_pos rfl] at hmoved ⊢
      omega
    · rw [if_neg (Ne.symm hr)] at hmoved
      rw [if_neg hr]
      omega
  · intro k r
    rw [hbase, hcounters]
    split
    · rename_i hr
      rw [hr]
      exact (hgained k).2
    · exact h.behind k r
  · intro j t ht
    rw [hticks, List.getElem?_set] at ht
    split at ht
    · rename_i hij
      split at ht
      · obtain rfl := hij
        obtain rfl := Option.some.inj ht
        refine ⟨?_, fun _ _ => trivial⟩
        rw [hnext]
        exact hholder
      · cases ht
    · rename_i hij
      have hp := h.placed j t ht
      cases t with
      | reading now' cached' todo' loading' rows' read' =>
        -- two ticks would hold the lock
        exact absurd (Option.some.inj (hholder.symm.trans hp.1)) hij
      | waiting _ _ => trivial
      | appending _ _ _ => trivial
      | pruning _ _ _ => trivial
      | done _ _ => trivial
  · intro t ht e he k
    rw [hticks] at ht
    rw [hbase]
    rcases List.mem_or_eq_of_mem_set ht with ht | rfl
    · exact (h.read t ht e he k).trans (hgrows e.1 k)
    · rcases List.mem_append.mp he with he | he
      · exact (h.read _ (List.mem_of_getElem? hold) e he k).trans (hgrows e.1 k)
      · obtain rfl := List.mem_singleton.mp he
        rw [if_pos rfl]

end Steps

section Runs
variable (settings : Settings)

theorem Conserved.load {w : World} (h : Conserved w) (i : ℕ) :
    Conserved (step settings w (.load i)) := by
  unfold step
  dsimp only
  split
  · rename_i now cached registry todo loading rows read hold
    obtain ⟨hholder, hloaded⟩ := h.placed i _ hold
    have hloaded := hloaded registry rfl
    have hhits : (w.baselineOf registry).hits ≤ (w.counters registry).hits :=
      h.behind .hits registry
    have hmisses : (w.baselineOf registry).misses ≤ (w.counters registry).misses :=
      h.behind .misses registry
    cases loading with
    | start =>
      refine h.advance hold rfl rfl rfl (fun _ _ => rfl) rfl ⟨hholder, ?_⟩ (fun _ _ hj => hj)
      intro r hr
      obtain rfl : registry = r := by simpa using hr
      exact ⟨hhits, Nat.le_refl _⟩
    | hits n =>
      refine h.advance hold rfl rfl rfl (fun _ _ => rfl) rfl ⟨hholder, ?_⟩ (fun _ _ hj => hj)
      intro r hr
      obtain rfl : registry = r := by simpa using hr
      exact ⟨hloaded, hmisses, Nat.le_refl _⟩
    | misses n m => exact h.complete hold rfl rfl
  · exact h

theorem placed_afterAppend (w : World) (i : ℕ) (now : DateTime) (written : ℕ)
    (read : List (String × Counts)) : Placed w i (afterAppend settings now written read) := by
  unfold afterAppend
  split <;> trivial

theorem Conserved.append {w : World} (h : Conserved w) (i : ℕ) (outcome : WriteOutcome) :
    Conserved (step settings w (.append i outcome)) := by
  unfold step
  dsimp only
  split
  · rename_i now rows read hold
    cases outcome with
    | stored =>
      have hread : (afterAppend settings now rows.length read).read = read := by
        unfold afterAppend
        split <;> rfl
      have hrows : (afterAppend settings now rows.length read).rows = [] := by
        unfold afterAppend
        split <;> rfl
      dsimp only
      refine h.advance hold rfl rfl rfl (fun k registry => ?_) hread
        (placed_afterAppend settings _ i now rows.length read) (fun _ _ hj => hj)
      dsimp only
      rw [hrows, total_append, total_nil, Tick.rows]
      omega
    | refused e =>
      dsimp only
      refine h.advance hold rfl rfl rfl (fun k registry => ?_) rfl trivial (fun _ _ hj => hj)
      dsimp only
      rw [total_append, Tick.rows, Tick.rows, total_nil]
      omega
    | unreported e =>
      dsimp only
      refine h.advance hold rfl rfl rfl (fun k registry => ?_) rfl trivial (fun _ _ hj => hj)
      dsimp only
      rw [total_append, Tick.rows, Tick.rows, total_nil]
      omega
  · exact h

theorem Conserved.release {w : World} (h : Conserved w) (i : ℕ) :
    Conserved (step settings w (.release i)) := by
  unfold step
  dsimp only
  split
  · rename_i now cached loading rows read hold
    obtain ⟨hholder, -⟩ := h.placed i _ hold
    have hfree : ∀ j, j ≠ i → w.holder = some j → (none : Option ℕ) = some j := by
      intro j hj hw
      exact absurd (Option.some.inj (hw.symm.trans hholder)) hj
    by_cases hrows : rows = []
    · rw [if_pos hrows]
      refine h.advance hold rfl rfl rfl (fun k registry => ?_) rfl trivial hfree
      rw [Tick.rows, Tick.rows, hrows]
    · rw [if_neg hrows]
      exact h.advance hold rfl rfl rfl (fun _ _ => rfl) rfl trivial hfree
  · exact h

/-- Every step keeps the sum. -/
theorem step_conserved {w : World} (h : Conserved w) (e : Event) :
    Conserved (step settings w e) := by
  cases e with
  | record registry counter =>
    unfold step
    dsimp only
    split
    · exact h.record registry counter
    · exact h
  | start now cached => exact h.start now cached
  | acquire i =>
    unfold step
    dsimp only
    split
    · rename_i now cached hold hfree
      refine h.advance hold rfl rfl rfl (fun _ _ => rfl) rfl ⟨rfl, fun _ _ => trivial⟩ ?_
      intro j _ hj
      rw [hfree] at hj
      cases hj
    · exact h
  | load i => exact h.load settings i
  | release i => exact h.release settings i
  | append i outcome => exact h.append settings i outcome
  | prune i outcome =>
    unfold step
    dsimp only
    split
    · rename_i now written read hold
      cases outcome <;>
        exact h.advance hold rfl rfl rfl (fun _ _ => rfl) rfl trivial (fun _ _ hj => hj)
    · exact h

theorem run_conserved (events : List Event) :
    Conserved (Runs.run (step settings) World.init events) :=
  Runs.run_keeps_of_forall (fun _ => True) Conserved (fun _ e h _ => step_conserved settings h e)
    World.init events conserved_init fun _ _ => trivial

/-- What a tick can turn into. -/
inductive Moves : Tick → Tick → Prop where
  | acquire (now : DateTime) (cached : Assoc String ℕ) :
    Moves (.waiting now cached) (.reading now cached settings.names .start [] [])
  | load (now : DateTime) (cached : Assoc String ℕ) (todo : List String) (loading next : Loading)
      (rows : List StatsRollupRow) (read : List (String × Counts)) :
    Moves (.reading now cached todo loading rows read) (.reading now cached todo next rows read)
  | complete (now : DateTime) (cached : Assoc String ℕ) (registry : String) (todo : List String)
      (loading : Loading) (rows : List StatsRollupRow) (read : List (String × Counts))
      (row : StatsRollupRow) (seen : Counts) :
    Moves (.reading now cached (registry :: todo) loading rows read)
      (.reading now cached todo .start (rows ++ [row]) (read ++ [(registry, seen)]))
  | release (now : DateTime) (cached : Assoc String ℕ) (loading : Loading)
      (rows : List StatsRollupRow) (read : List (String × Counts)) :
    Moves (.reading now cached [] loading rows read)
      (if rows = [] then .done (.ok 0) read else .appending now rows read)
  | append (now : DateTime) (rows : List StatsRollupRow) (read : List (String × Counts)) :
    Moves (.appending now rows read) (afterAppend settings now rows.length read)
  | appendError (now : DateTime) (rows : List StatsRollupRow) (read : List (String × Counts))
      (e : CoreError) :
    Moves (.appending now rows read) (.done (.error e) read)
  | prune (now : DateTime) (written : ℕ) (read : List (String × Counts))
      (result : Except CoreError ℕ) :
    Moves (.pruning now written read) (.done result read)

/-- A tick after a step is as before, or new, or one that has moved. -/
theorem ticks_step {w : World} {e : Event} {i : ℕ} {t : Tick}
    (h : (step settings w e).ticks[i]? = some t) :
    w.ticks[i]? = some t ∨ (∃ now cached, t = .waiting now cached) ∨
      ∃ old, w.ticks[i]? = some old ∧ Moves settings old t := by
  have hset : ∀ {j : ℕ} {old new : Tick}, w.ticks[j]? = some old → Moves settings old new →
      (w.ticks.set j new)[i]? = some t →
      w.ticks[i]? = some t ∨ (∃ now cached, t = .waiting now cached) ∨
        ∃ old, w.ticks[i]? = some old ∧ Moves settings old t := by
    intro j old new hold hmoves ht
    by_cases hji : j = i
    · subst hji
      rw [List.getElem?_set_self', hold] at ht
      obtain rfl : new = t := by simpa using ht
      exact .inr (.inr ⟨old, hold, hmoves⟩)
    · rw [List.getElem?_set_ne hji] at ht
      exact .inl ht
  cases e with
  | record registry counter =>
    unfold step at h
    dsimp only at h
    split at h <;> exact .inl h
  | start now cached =>
    rw [step, List.getElem?_append] at h
    split at h
    · exact .inl h
    · exact .inr (.inl ⟨now, cached, (List.mem_singleton.mp (List.mem_of_getElem? h))⟩)
  | acquire j =>
    unfold step at h
    dsimp only at h
    split at h
    · rename_i now cached hold hfree
      exact hset hold (.acquire now cached) h
    · exact .inl h
  | load j =>
    unfold step at h
    dsimp only at h
    split at h
    · rename_i now cached registry todo loading rows read hold
      cases loading with
      | start => exact hset hold (.load now cached _ _ _ rows read) h
      | hits n => exact hset hold (.load now cached _ _ _ rows read) h
      | misses n m => exact hset hold (.complete now cached registry todo _ rows read _ _) h
    · exact .inl h
  | release j =>
    unfold step at h
    dsimp only at h
    split at h
    · rename_i now cached loading rows read hold
      exact hset hold (.release now cached loading rows read) h
    · exact .inl h
  | append j outcome =>
    unfold step at h
    dsimp only at h
    split at h
    · rename_i now rows read hold
      cases outcome with
      | stored => exact hset hold (.append now rows read) h
      | refused e => exact hset hold (.appendError now rows read e) h
      | unreported e => exact hset hold (.appendError now rows read e) h
    · exact .inl h
  | prune j outcome =>
    unfold step at h
    dsimp only at h
    split at h
    · rename_i now written read hold
      cases outcome with
      | stored => exact hset hold (.prune now written read _) h
      | refused e => exact hset hold (.prune now written read _) h
      | unreported e => exact hset hold (.prune now written read _) h
    · exact .inl h

/-- A tick only prunes with a retention, and it reads every registry before it writes. -/
def Tick.Ordered : Tick → Prop
  | waiting _ _ => True
  | reading _ _ todo _ _ read => read.map Prod.fst ++ todo = settings.names
  | appending _ _ read => read.map Prod.fst = settings.names
  | pruning _ _ read => read.map Prod.fst = settings.names ∧ 0 < settings.retentionDays
  | done _ read => read.map Prod.fst = settings.names

theorem Moves.ordered {old new : Tick} (h : Moves settings old new)
    (hold : old.Ordered settings) : new.Ordered settings := by
  cases h with
  | acquire now cached => exact List.nil_append _
  | load now cached todo loading next rows read => exact hold
  | complete now cached registry todo loading rows read row seen =>
    have hnames : read.map Prod.fst ++ registry :: todo = settings.names := hold
    rw [Tick.Ordered, List.map_append, List.append_assoc]
    exact hnames
  | release now cached loading rows read =>
    have hnames : read.map Prod.fst = settings.names := (List.append_nil _).symm.trans hold
    split
    · exact hnames
    · exact hnames
  | append now rows read =>
    have hnames : read.map Prod.fst = settings.names := hold
    unfold afterAppend
    split
    · rename_i hretention
      exact ⟨hnames, hretention⟩
    · exact hnames
  | appendError now rows read e => exact hold
  | prune now written read result => exact hold.1

theorem run_ordered (events : List Event) :
    ∀ t ∈ (Runs.run (step settings) World.init events).ticks, t.Ordered settings := by
  apply Runs.run_keeps_of_forall (fun _ => True)
    (fun w => ∀ t ∈ w.ticks, t.Ordered settings) ?_ World.init events
  · intro t ht
    simp [World.init] at ht
  · exact fun _ _ => trivial
  · intro w e h _ t ht
    obtain ⟨i, hi⟩ := List.getElem?_of_mem ht
    rcases ticks_step settings hi with hsame | ⟨now, cached, rfl⟩ | ⟨old, hold, hmoves⟩
    · exact h t (List.mem_of_getElem? hsame)
    · trivial
    · exact hmoves.ordered settings (h old (List.mem_of_getElem? hold))

/-- What a step does to the history: nothing, a merge of rows that count as written, or a
pruning. -/
theorem step_history (w : World) (e : Event) :
    (∃ rows, (step settings w e).history = upsertAll w.history rows ∧
        (step settings w e).appended = w.appended ++ rows) ∨
      (∃ cutoff, (step settings w e).history = pruneBefore w.history cutoff ∧
        (step settings w e).appended = w.appended ∧
          ∃ now written read, Tick.pruning now written read ∈ w.ticks) := by
  have hnone : (∃ rows, w.history = upsertAll w.history rows ∧ w.appended = w.appended ++ rows) :=
    ⟨[], rfl, (List.append_nil _).symm⟩
  cases e with
  | record registry counter =>
    unfold step
    dsimp only
    split <;> exact .inl hnone
  | start now cached => exact .inl hnone
  | acquire i =>
    unfold step
    dsimp only
    split <;> exact .inl hnone
  | load i =>
    unfold step
    dsimp only
    split
    · split <;> exact .inl hnone
    · exact .inl hnone
  | release i =>
    unfold step
    dsimp only
    split <;> exact .inl hnone
  | append i outcome =>
    unfold step
    dsimp only
    split
    · rename_i now rows read hold
      cases outcome with
      | stored => exact .inl ⟨rows, rfl, rfl⟩
      | refused e => exact .inl hnone
      | unreported e => exact .inl ⟨rows, rfl, rfl⟩
    · exact .inl hnone
  | prune i outcome =>
    unfold step
    dsimp only
    split
    · rename_i now written read hold
      cases outcome with
      | stored => exact .inr ⟨_, rfl, rfl, now, written, read, List.mem_of_getElem? hold⟩
      | refused e => exact .inl hnone
      | unreported e => exact .inr ⟨_, rfl, rfl, now, written, read, List.mem_of_getElem? hold⟩
    · exact .inl hnone

/-- The history shows no more than was written, and all of it where nothing is pruned. -/
def Shown (w : World) : Prop := ∀ k registry,
  total k registry w.history ≤ total k registry w.appended ∧
    (settings.retentionDays = 0 → total k registry w.history = total k registry w.appended)

theorem step_shown {w : World} (hticks : ∀ t ∈ w.ticks, t.Ordered settings)
    (h : Shown settings w) (e : Event) : Shown settings (step settings w e) := by
  intro k registry
  obtain ⟨hle, hall⟩ := h k registry
  rcases step_history settings w e with ⟨rows, hhistory, happended⟩ |
    ⟨cutoff, hhistory, happended, now, written, read, hpruning⟩
  · rw [hhistory, happended, total_upsertAll, total_append]
    exact ⟨Nat.add_le_add_right hle _, fun hzero => by rw [hall hzero]⟩
  · have hretention : 0 < settings.retentionDays := (hticks _ hpruning).2
    rw [hhistory, happended]
    refine ⟨(total_pruneBefore_le k registry w.history cutoff).trans hle, fun hzero => ?_⟩
    omega

theorem run_shown (events : List Event) :
    Shown settings (Runs.run (step settings) World.init events) := by
  induction events using List.reverseRecOn with
  | nil => exact fun _ _ => ⟨Nat.le_refl _, fun _ => rfl⟩
  | append_singleton events e ih =>
    rw [Runs.run_append]
    exact step_shown settings (run_ordered settings events) ih e

end Runs

section Sequential
variable (settings : Settings)

def Tick.Idle : Tick → Prop
  | waiting _ _ => True
  | done _ _ => True
  | _ => False

instance : (t : Tick) → Decidable t.Idle
  | .waiting _ _ => isTrue trivial
  | .done _ _ => isTrue trivial
  | .reading _ _ _ _ _ _ => isFalse id
  | .appending _ _ _ => isFalse id
  | .pruning _ _ _ => isFalse id

theorem Tick.Idle.rows_eq_nil {t : Tick} (h : t.Idle) : t.rows = [] := by
  cases t with
  | waiting _ _ => rfl
  | done _ _ => rfl
  | reading _ _ _ _ _ _ => exact h.elim
  | appending _ _ _ => exact h.elim
  | pruning _ _ _ => exact h.elim

/-- One tick at a time, as the server's loop runs them. -/
def OneAtATime (w : World) : Event → Prop
  | .acquire i => ∀ j t, j ≠ i → w.ticks[j]? = some t → t.Idle
  | _ => True

theorem oneAtATime_acquire_iff (w : World) (i : ℕ) :
    OneAtATime w (.acquire i) ↔
      ∀ j ∈ List.range w.ticks.length, j ≠ i → ∀ t ∈ w.ticks[j]?, t.Idle := by
  constructor
  · intro h j _ hj t ht
    exact h j t hj ht
  · intro h j t hj ht
    exact h j (List.mem_range.mpr (List.getElem?_eq_some_iff.mp ht).1) hj t ht

instance (w : World) : (e : Event) → Decidable (OneAtATime w e)
  | .acquire i => decidable_of_iff _ (oneAtATime_acquire_iff w i).symm
  | .record _ _ => isTrue trivial
  | .start _ _ => isTrue trivial
  | .load _ => isTrue trivial
  | .release _ => isTrue trivial
  | .append _ _ => isTrue trivial
  | .prune _ _ => isTrue trivial

/-- What a tick read is what the baseline says, and it reads no registry twice. -/
def Fresh (w : World) (t : Tick) : Prop :=
  (∀ e ∈ t.read, e.2 = w.baselineOf e.1) ∧
    match t with
    | .reading _ _ todo _ _ read => todo.Nodup ∧ ∀ e ∈ read, e.1 ∉ todo
    | _ => True

/-- Every tick but the last one to read is idle. -/
structure Single (w : World) (last : ℕ) : Prop where
  idle : ∀ j t, j ≠ last → w.ticks[j]? = some t → t.Idle
  fresh : ∀ t, w.ticks[last]? = some t → Fresh w t

/-- The tick that reads, or has read, after an event. -/
def lastAfter (w : World) (last : ℕ) : Event → ℕ
  | .acquire i =>
    match w.ticks[i]?, w.holder with
    | some (.waiting _ _), none => i
    | _, _ => last
  | _ => last

theorem lastAfter_acquire {w : World} {last i : ℕ} {now : DateTime} {cached : Assoc String ℕ}
    (hold : w.ticks[i]? = some (.waiting now cached)) (hfree : w.holder = none) :
    lastAfter w last (.acquire i) = i := by
  simp only [lastAfter, hold, hfree]

theorem lastAfter_acquire_of_not {w : World} {last i : ℕ}
    (hno : ∀ now cached, w.ticks[i]? = some (.waiting now cached) → w.holder = none → False) :
    lastAfter w last (.acquire i) = last := by
  dsimp only [lastAfter]
  split
  · rename_i hold hfree
    exact (hno _ _ hold hfree).elim
  · rfl

/-- The last tick moves on and the baseline stays. -/
theorem Single.advance {w w' : World} {last i : ℕ} {old new : Tick} (h : Single w last)
    (hold : w.ticks[i]? = some old) (hbusy : ¬ old.Idle)
    (hticks : w'.ticks = w.ticks.set i new)
    (hfresh : Fresh w old → Fresh w' new) : Single w' last := by
  obtain rfl : i = last := by
    by_contra hne
    exact hbusy (h.idle i old hne hold)
  refine ⟨fun j t hj ht => ?_, fun t ht => ?_⟩
  · rw [hticks, List.getElem?_set_ne (Ne.symm hj)] at ht
    exact h.idle j t hj ht
  · rw [hticks, List.getElem?_set_self'] at ht
    rw [hold] at ht
    obtain rfl : new = t := by simpa using ht
    exact hfresh (h.fresh old hold)

theorem Single.load {w : World} {last : ℕ} (h : Single w last) (i : ℕ) :
    Single (step settings w (.load i)) last := by
  unfold step
  dsimp only
  split
  · rename_i now cached registry todo loading rows read hold
    cases loading with
    | start => exact h.advance hold id rfl id
    | hits n => exact h.advance hold id rfl id
    | misses n m =>
      refine h.advance hold id rfl ?_
      rintro ⟨hread, hnodup, hapart⟩
      obtain ⟨hnew, hrest⟩ := List.nodup_cons.mp hnodup
      refine ⟨fun e he => ?_, hrest, fun e he => ?_⟩
      · rw [World.baselineOf, lookup_insert_eq]
        rcases List.mem_append.mp he with he | he
        · have hother : e.1 ≠ registry := fun heq =>
            hapart e he (heq ▸ List.mem_cons_self)
          rw [if_neg hother]
          exact hread e he
        · obtain rfl := List.mem_singleton.mp he
          rw [if_pos rfl]
          rfl
      · rcases List.mem_append.mp he with he | he
        · exact fun hmem => hapart e he (List.mem_cons_of_mem _ hmem)
        · obtain rfl := List.mem_singleton.mp he
          exact hnew
  · exact h

/-- A step of ticks that run one at a time. -/
theorem step_single {w : World} {last : ℕ} (h : Single w last) (e : Event)
    (hguard : OneAtATime w e) :
    Single (step settings w e) (lastAfter w last e) := by
  cases e with
  | record registry counter =>
    unfold step
    dsimp only
    split
    · exact ⟨h.idle, h.fresh⟩
    · exact h
  | start now cached =>
    refine ⟨fun j t hj ht => ?_, fun t ht => ?_⟩
    · rcases List.mem_append.mp (List.mem_of_getElem? ht) with hmem | hmem
      · rw [step, List.getElem?_append] at ht
        split at ht
        · exact h.idle j t hj ht
        · obtain rfl := List.mem_singleton.mp (List.mem_of_getElem? ht)
          trivial
      · obtain rfl := List.mem_singleton.mp hmem
        trivial
    · rw [step, List.getElem?_append] at ht
      split at ht
      · exact h.fresh t ht
      · obtain rfl := List.mem_singleton.mp (List.mem_of_getElem? ht)
        exact ⟨fun e he => by simp [Tick.read] at he, trivial⟩
  | acquire i =>
    unfold step
    dsimp only
    split
    · rename_i now cached hold hfree
      rw [lastAfter_acquire hold hfree]
      refine ⟨fun j t hj ht => ?_, fun t ht => ?_⟩
      · rw [List.getElem?_set_ne (Ne.symm hj)] at ht
        exact hguard j t hj ht
      · rw [List.getElem?_set_self', hold] at ht
        obtain rfl : Tick.reading now cached settings.names .start [] [] = t := by simpa using ht
        exact ⟨fun e he => by simp [Tick.read] at he, settings.distinct, fun e he => by simp at he⟩
    · rename_i hno
      rw [lastAfter_acquire_of_not hno]
      exact h
  | load i => exact h.load settings i
  | release i =>
    unfold step lastAfter
    dsimp only
    split
    · rename_i now cached loading rows read hold
      refine h.advance hold id rfl fun hfresh => ?_
      split
      · exact ⟨hfresh.1, trivial⟩
      · exact ⟨hfresh.1, trivial⟩
    · exact h
  | append i outcome =>
    unfold step lastAfter
    dsimp only
    split
    · rename_i now rows read hold
      cases outcome with
      | stored =>
        refine h.advance hold id rfl fun hfresh => ?_
        unfold afterAppend
        by_cases hretention : 0 < settings.retentionDays
        · rw [if_pos hretention]
          exact ⟨hfresh.1, trivial⟩
        · rw [if_neg hretention]
          exact ⟨hfresh.1, trivial⟩
      | refused e => exact h.advance hold id rfl fun hfresh => ⟨hfresh.1, trivial⟩
      | unreported e => exact h.advance hold id rfl fun hfresh => ⟨hfresh.1, trivial⟩
    · exact h
  | prune i outcome =>
    unfold step lastAfter
    dsimp only
    split
    · rename_i now written read hold
      cases outcome <;> exact h.advance hold id rfl fun hfresh => ⟨hfresh.1, trivial⟩
    · exact h

end Sequential

section Returns
variable (settings : Settings)

theorem run_single (events : List Event)
    (hguard : Runs.Guarded (step settings) OneAtATime World.init events) :
    ∃ last, Single (Runs.run (step settings) World.init events) last := by
  refine Runs.run_keeps OneAtATime (fun w => ∃ last, Single w last) ?_ World.init events ?_ hguard
  · rintro w e ⟨last, h⟩ hone
    exact ⟨_, step_single settings h e hone⟩
  · exact ⟨0, fun j t _ ht => by simp [World.init] at ht, fun t ht => by simp [World.init] at ht⟩

/-- A tick that returns was busy, and it was the last one to read. -/
theorem busy_of_returned {w : World} {e : Event} {i : ℕ} {result : Except CoreError ℕ}
    {read : List (String × Counts)} (hbefore : w.ticks[i]? ≠ some (.done result read))
    (hafter : (step settings w e).ticks[i]? = some (.done result read)) :
    ∃ old, w.ticks[i]? = some old ∧ ¬ old.Idle := by
  rcases ticks_step settings hafter with hsame | ⟨now, cached, hnew⟩ | ⟨old, hold, hmoves⟩
  · exact absurd hsame hbefore
  · cases hnew
  · refine ⟨old, hold, ?_⟩
    generalize hdone : Tick.done result read = new at hmoves
    cases hmoves with
    | acquire now cached => cases hdone
    | load now cached todo loading next rows read => exact id
    | complete now cached registry todo loading rows read row seen => exact id
    | release now cached loading rows read => exact id
    | append now rows read => exact id
    | appendError now rows read e => exact id
    | prune now written read result => exact id

theorem lastAfter_of_returned {w : World} {e : Event} {i last : ℕ}
    {result : Except CoreError ℕ} {read : List (String × Counts)}
    (hbefore : w.ticks[i]? ≠ some (.done result read))
    (hafter : (step settings w e).ticks[i]? = some (.done result read)) :
    lastAfter w last e = last := by
  cases e with
  | acquire j =>
    unfold step at hafter
    dsimp only at hafter
    split at hafter
    · rename_i now cached hold hfree
      by_cases hji : j = i
      · subst hji
        rw [List.getElem?_set_self', hold] at hafter
        simp at hafter
      · rw [List.getElem?_set_ne hji] at hafter
        exact absurd hafter hbefore
    · exact absurd hafter hbefore
  | record registry counter => rfl
  | start now cached => rfl
  | load j => rfl
  | release j => rfl
  | append j outcome => rfl
  | prune j outcome => rfl

theorem inFlight_eq_zero {ticks : List Tick} (k : Counter) (registry : String)
    (h : ∀ t ∈ ticks, t.Idle) : inFlight k registry ticks = 0 := by
  unfold inFlight
  apply List.sum_eq_zero
  intro n hn
  obtain ⟨t, ht, rfl⟩ := List.mem_map.mp hn
  rw [(h t ht).rows_eq_nil, total_nil]

/-- When a tick returns, one at a time, nothing is on its way and the baseline is what the
tick has read. -/
theorem returned_one_at_a_time {w : World} {e : Event} {last i : ℕ}
    {result : Except CoreError ℕ} {read : List (String × Counts)} (h : Single w last)
    (hguard : OneAtATime w e) (hbefore : w.ticks[i]? ≠ some (.done result read))
    (hafter : (step settings w e).ticks[i]? = some (.done result read)) :
    (∀ k registry, inFlight k registry (step settings w e).ticks = 0) ∧
      ∀ entry ∈ read, entry.2 = (step settings w e).baselineOf entry.1 := by
  obtain ⟨old, hold, hbusy⟩ := busy_of_returned settings hbefore hafter
  obtain rfl : i = last := by
    by_contra hne
    exact hbusy (h.idle i old hne hold)
  have hsingle := step_single settings h e hguard
  rw [lastAfter_of_returned settings hbefore hafter] at hsingle
  refine ⟨fun k registry => inFlight_eq_zero k registry fun t ht => ?_,
    (hsingle.fresh _ hafter).1⟩
  obtain ⟨j, hj⟩ := List.getElem?_of_mem ht
  by_cases hji : j = i
  · subst hji
    obtain rfl := Option.some.inj (hafter.symm.trans hj)
    trivial
  · exact hsingle.idle j t hji hj

end Returns

section Conservation
variable (settings : Settings)

/-- A tick whose write fails, and the next one. -/
def failedTick : List Event :=
  [.record "npm" .hits, .start 0 ∅, .acquire 0, .load 0, .load 0, .load 0, .release 0,
    .append 0 (.refused (.database "the database is away")), .record "npm" .hits, .start 1 ∅,
    .acquire 1, .load 1, .load 1, .load 1, .release 1]

def npmOnly : Settings := ⟨["npm"], 0, by decide⟩

/-- The rows written, the rows of failed writes and the rows on their way are the counters as
last read, at any moment of any run. When a tick returns `Ok` it has read every registry, and
with no other tick beside it the rows written and those of failed writes are what it read. The
history shows no more than was written, and all of it where nothing is pruned. -/
theorem rollup_conserves (events : List Event) (e : Event) :
    let w := Runs.run (step settings) World.init events
    (∀ k registry, total k registry w.appended + total k registry w.lost +
          inFlight k registry w.ticks = (w.baselineOf registry).get k ∧
        (w.baselineOf registry).get k ≤ (w.counters registry).get k) ∧
      (∀ (i written : ℕ) (read : List (String × Counts)),
        w.ticks[i]? ≠ some (.done (.ok written) read) →
        (step settings w e).ticks[i]? = some (.done (.ok written) read) →
        read.map Prod.fst = settings.names ∧
          (Runs.Guarded (step settings) OneAtATime World.init (events ++ [e]) →
            ∀ entry ∈ read, ∀ k,
              total k entry.1 (step settings w e).appended +
                total k entry.1 (step settings w e).lost = entry.2.get k)) ∧
      ∀ k registry, total k registry w.history ≤ total k registry w.appended ∧
        (settings.retentionDays = 0 →
          total k registry w.history = total k registry w.appended) := by
  intro w
  have hw := run_conserved settings events
  refine ⟨fun k registry => ⟨hw.sum k registry, hw.behind k registry⟩, ?_,
    run_shown settings events⟩
  intro i written read hbefore hafter
  have hnext := step_conserved settings hw e
  have hordered := run_ordered settings (events ++ [e])
  rw [Runs.run_append] at hordered
  refine ⟨hordered _ (List.mem_of_getElem? hafter), fun hguard entry hentry k => ?_⟩
  rw [Runs.guarded_append] at hguard
  obtain ⟨last, hsingle⟩ := run_single settings events hguard.1
  obtain ⟨hnone, hfresh⟩ :=
    returned_one_at_a_time settings hsingle hguard.2.1 hbefore hafter
  have hsum := hnext.sum k entry.1
  rw [hnone, Nat.add_zero, ← hfresh entry hentry] at hsum
  exact hsum

/-- After the second tick's write. -/
def secondTick : World :=
  step npmOnly (Runs.run (step npmOnly) World.init failedTick) (.append 1 .stored)

theorem failed_and_written_add_up :
    total .hits "npm" secondTick.appended + total .hits "npm" secondTick.lost = 2 :=
  ((rollup_conserves npmOnly failedTick (.append 1 .stored)).2.1 1 1 [("npm", ⟨2, 0, 0⟩)]
    (by decide +kernel) (by decide +kernel)).2 (by decide +kernel) ("npm", ⟨2, 0, 0⟩)
    List.mem_cons_self .hits

/-- A write that failed is not made up for: the next tick writes its own gain only. -/
theorem failed_append_is_lost :
    ¬ ∀ (settings : Settings) (events : List Event) (e : Event) (i written : ℕ)
        (read : List (String × Counts)),
      (Runs.run (step settings) World.init events).ticks[i]? ≠ some (.done (.ok written) read) →
      (step settings (Runs.run (step settings) World.init events) e).ticks[i]? =
        some (.done (.ok written) read) →
      ∀ entry ∈ read, ∀ k,
        total k entry.1 (step settings (Runs.run (step settings) World.init events) e).appended =
          entry.2.get k := by
  intro hexact
  have hequal := hexact npmOnly failedTick (.append 1 .stored) 1 1
    [("npm", ⟨2, 0, 0⟩)] (by decide +kernel) (by decide +kernel) ("npm", ⟨2, 0, 0⟩)
    List.mem_cons_self .hits
  exact absurd hequal (by decide +kernel)

end Conservation

end BatleHub.StatsRollup
