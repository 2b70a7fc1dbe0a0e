import BatleHub.ExploreCache
import BatleHub.Lib.Runs
import BatleHub.Lib.Slots

/-!
Readers, writers and heartbeats over the explore caches of several replicas. A reader
queries the database and stores the result later; a writer changes a registry, clears
the two maps of its own replica and advances the shared counter; each replica reads the
counters and clears what moved. Reads and writes of the database are dated by one clock,
so that an entry can be told to be older than a write.
-/
namespace BatleHub.ExploreTraffic

open LocalPackages ExploreCache Lib.AssocMap Lib.Runs Lib.Slots

/-- Where a replica's heartbeat loop stands. -/
inductive Sync where
  | waiting
  | answered (now : Counters)
  | applying (now : Counters) (pending : List Drop)

structure Replica (α : Type) where
  entries : Entries α
  seen : Option Counters
  sync : Sync

/-- A completed invalidation: the write it follows, and the counter it left behind. -/
structure Invalidation where
  registry : String
  whole : Bool
  writtenAt : ℕ
  count : ℤ

/-- The argument of `invalidate`. -/
def Invalidation.target (i : Invalidation) : Option String :=
  if i.whole then none else some i.registry

/-- A call in flight: a reader with its result, a writer before `invalidate`, and a call of
`invalidate` before its second clear and before its announcement. -/
inductive Task (α : Type) where
  | reader (replica : ℕ) (cache : Cache) (key : String) (value : α) (registries : List String)
      (readAt : ℕ)
  | writer (replica : ℕ) (registry : String) (writtenAt : ℕ)
  | clearing (replica : ℕ) (i : Invalidation)
  | announcing (i : Invalidation)

structure World (α : Type) where
  counters : Counters
  replicas : ℕ → Replica α
  tasks : ℕ → Option (Task α)
  clock : ℕ
  completed : List Invalidation

def Replica.started {α : Type} : Replica α := ⟨fun _ => ∅, none, .waiting⟩

def World.initial (α : Type) : World α := ⟨∅, fun _ => .started, fun _ => none, 0, []⟩

inductive Event (α : Type) where
  | readDb (id replica : ℕ) (cache : Cache) (key : String) (value : α) (registries : List String)
  | set (id : ℕ) (now : DateTime)
  | writeDb (id replica : ℕ) (registry : String)
  | clearPackages (id : ℕ) (whole : Bool)
  | clearStats (id : ℕ)
  | bump (id : ℕ) (advanced : Bool)
  | heartbeat (replica : ℕ)
  | applyStart (replica : ℕ) (order : List (Σ _ : String, ℤ))
  | applyDrop (replica : ℕ)
  | applyEnd (replica : ℕ)

variable {α : Type}

def World.setTask (w : World α) (id : ℕ) (task : Option (Task α)) : World α :=
  { w with tasks := Function.update w.tasks id task }

def World.setReplica (w : World α) (r : ℕ) (replica : Replica α) : World α :=
  { w with replicas := Function.update w.replicas r replica }

def World.tick (w : World α) : World α := { w with clock := w.clock + 1 }

def Replica.withEntries (p : Replica α) (entries : Entries α) : Replica α :=
  { p with entries := entries }

def Replica.withSync (p : Replica α) (sync : Sync) : Replica α := { p with sync := sync }

/-- The announcement. Where the counter did not advance no replica can learn of it, and the
call still returns. -/
def World.announce (w : World α) (i : Invalidation) (advanced : Bool) : World α :=
  if advanced then
    { w with
      counters := ExploreCache.bump w.counters (topic i.target)
      completed :=
        { i with count := (w.counters.lookup (topic i.target)).getD 0 + 1 } :: w.completed }
  else w

def step (w : World α) : Event α → World α
  | .readDb id r cache key value registries =>
    (w.setTask id (some (.reader r cache key value registries w.clock))).tick
  | .set id now =>
    match w.tasks id with
    | some (.reader r cache key value registries readAt) =>
      let p := w.replicas r
      (w.setReplica r (p.withEntries
        (ExploreCache.set p.entries cache key ⟨value, registries, now, readAt⟩))).setTask id none
    | _ => w
  | .writeDb id r registry => (w.setTask id (some (.writer r registry w.clock))).tick
  | .clearPackages id whole =>
    match w.tasks id with
    | some (.writer r registry writtenAt) =>
      let i : Invalidation := ⟨registry, whole, writtenAt, 0⟩
      let p := w.replicas r
      (w.setReplica r (p.withEntries (Drop.apply ⟨.packages, i.target⟩ p.entries))).setTask id
        (some (.clearing r i))
    | _ => w
  | .clearStats id =>
    match w.tasks id with
    | some (.clearing r i) =>
      let p := w.replicas r
      (w.setReplica r (p.withEntries (Drop.apply ⟨.stats, i.target⟩ p.entries))).setTask id
        (some (.announcing i))
    | _ => w
  | .bump id advanced =>
    match w.tasks id with
    | some (.announcing i) => (w.announce i advanced).setTask id none
    | _ => w
  | .heartbeat r =>
    match (w.replicas r).sync with
    | .waiting =>
      w.setReplica r ((w.replicas r).withSync (.answered (ExploreCache.heartbeat w.counters)))
    | _ => w
  | .applyStart r order =>
    -- the map is gone through in an order of its own
    match (w.replicas r).sync with
    | .answered now =>
      if order.isPerm now.entries then
        w.setReplica r
          ((w.replicas r).withSync (.applying now (dropsOf (w.replicas r).seen order)))
      else w
    | _ => w
  | .applyDrop r =>
    match (w.replicas r).sync with
    | .applying now (d :: rest) =>
      w.setReplica r ⟨d.apply (w.replicas r).entries, (w.replicas r).seen, .applying now rest⟩
    | _ => w
  | .applyEnd r =>
    match (w.replicas r).sync with
    | .applying now [] => w.setReplica r ⟨(w.replicas r).entries, some now, .waiting⟩
    | _ => w

/-- The counters take the invalidation in. -/
def Includes (counters : Counters) (i : Invalidation) : Prop :=
  ∃ g, counters.lookup (topic i.target) = some g ∧ i.count ≤ g

/-- The replica has applied counters that include the invalidation. -/
def Applied (w : World α) (r : ℕ) (i : Invalidation) : Prop :=
  ∃ seen, (w.replicas r).seen = some seen ∧ Includes seen i

/-- What was read touches the invalidation's registry and is older than its write. -/
def Stale (registries : List String) (readAt : ℕ) (i : Invalidation) : Prop :=
  i.registry ∈ registries ∧ readAt < i.writtenAt

/-- The replica is past the invalidation's clear of `cache`: it has applied the
invalidation, or is applying it with that clear behind it. -/
def Past (p : Replica α) (cache : Cache) (i : Invalidation) : Prop :=
  (∃ seen, p.seen = some seen ∧ Includes seen i) ∨
    ∃ now pending, p.sync = .applying now pending ∧ Includes now i ∧
      ∀ d ∈ pending, ¬ d.Covers cache i.registry

/-- No result is stored on a replica past the invalidation of what it read, and a replica
takes its first counters only while it has nothing cached from before a write they
include. -/
def NoLateSet (w : World α) : Event α → Prop
  | .set id _ =>
    ∀ r cache key value registries readAt,
      w.tasks id = some (.reader r cache key value registries readAt) →
      ∀ i ∈ w.completed, Stale registries readAt i → ¬ Past (w.replicas r) cache i
  | .applyStart r _ =>
    ∀ now, (w.replicas r).sync = .answered now → (w.replicas r).seen = none →
      ∀ i ∈ w.completed, Includes now i →
        ∀ cache key e, ((w.replicas r).entries cache).lookup key = some e →
          ¬ Stale e.registries e.readAt i
  | _ => True

/-- Counters that only moved on, over the topics of invalidations. -/
def Le (s t : Counters) : Prop :=
  ∀ target g, s.lookup (topic target) = some g → ∃ g', t.lookup (topic target) = some g' ∧ g ≤ g'

theorem Le.trans {s t u : Counters} (hst : Le s t) (htu : Le t u) : Le s u := by
  intro target g h
  obtain ⟨g', ht, hle⟩ := hst target g h
  obtain ⟨g'', hu, hle'⟩ := htu target g' ht
  exact ⟨g'', hu, Int.le_trans hle hle'⟩

theorem Includes.mono {s t : Counters} {i : Invalidation} (h : Includes s i) (hle : Le s t) :
    Includes t i := by
  obtain ⟨g, hg, hcount⟩ := h
  obtain ⟨g', hg', hgg'⟩ := hle i.target g hg
  exact ⟨g', hg', Int.le_trans hcount hgg'⟩

theorem le_bump (counters : Counters) (t : String) : Le counters (bump counters t) := by
  intro target g h
  unfold bump
  rw [lookup_insert_eq]
  by_cases ht : topic target = t
  · rw [if_pos ht]
    refine ⟨_, rfl, ?_⟩
    rw [← ht, h]
    simp only [Option.getD_some]
    omega
  · rw [if_neg ht]
    exact ⟨g, h, Int.le_refl g⟩

theorem lookup_heartbeat (counters : Counters) (target : Option String) :
    (ExploreCache.heartbeat counters).lookup (topic target) = counters.lookup (topic target) := by
  unfold ExploreCache.heartbeat
  rw [lookup_retain, startsWith_topic]
  cases counters.lookup (topic target) <;> rfl

theorem le_heartbeat {s counters : Counters} (h : Le s counters) :
    Le s (ExploreCache.heartbeat counters) := by
  intro target g hg
  rw [lookup_heartbeat]
  exact h target g hg

theorem heartbeat_le (counters : Counters) : Le (ExploreCache.heartbeat counters) counters := by
  intro target g hg
  rw [lookup_heartbeat] at hg
  exact ⟨g, hg, Int.le_refl g⟩

/-- Counters read before an announcement do not include it. -/
theorem not_includes_announced {s counters : Counters} (hle : Le s counters) (i : Invalidation) :
    ¬ Includes s { i with count := (counters.lookup (topic i.target)).getD 0 + 1 } := by
  intro hincludes
  obtain ⟨g, hg, hcount⟩ := hincludes
  obtain ⟨g', hg', hgg'⟩ := hle i.target g hg
  simp only [hg', Option.getD_some] at hcount
  omega

/-- The counters the heartbeat loop holds. -/
def Sync.counters : Sync → Option Counters
  | .waiting => none
  | .answered now => some now
  | .applying now _ => some now

/-- One replica against the shared counters and the completed invalidations. What it holds
of the counters is behind them; nothing stale is cached under counters it has applied, and
what is stale under counters it is applying has a clear ahead of it. -/
structure Coherent (counters : Counters) (completed : List Invalidation) (p : Replica α) :
    Prop where
  seen_le : ∀ seen, p.seen = some seen → Le seen counters
  sync_le : ∀ now, p.sync.counters = some now → Le now counters
  seen_le_sync : ∀ seen now, p.seen = some seen → p.sync.counters = some now → Le seen now
  applied : ∀ seen, p.seen = some seen → ∀ i ∈ completed, Includes seen i →
    ∀ cache key e, (p.entries cache).lookup key = some e → ¬ Stale e.registries e.readAt i
  applying : ∀ now pending, p.sync = .applying now pending → ∀ i ∈ completed, Includes now i →
    ∀ cache key e, (p.entries cache).lookup key = some e → Stale e.registries e.readAt i →
      ∃ d ∈ pending, d.Covers cache i.registry

section Replica
variable {counters : Counters} {completed : List Invalidation} {p : Replica α}

theorem coherent_started : Coherent counters completed (Replica.started : Replica α) where
  seen_le := by simp [Replica.started]
  sync_le := by simp [Replica.started, Sync.counters]
  seen_le_sync := by simp [Replica.started]
  applied := by simp [Replica.started]
  applying := by simp [Replica.started]

/-- A clear removes entries and adds none. -/
theorem Coherent.clear (h : Coherent counters completed p) (d : Drop) :
    Coherent counters completed (p.withEntries (d.apply p.entries)) where
  seen_le := h.seen_le
  sync_le := h.sync_le
  seen_le_sync := h.seen_le_sync
  applied := by
    intro seen hseen i hi hincludes cache key e he
    exact h.applied seen hseen i hi hincludes cache key e (lookup_clear he).1
  applying := by
    intro now pending hsync i hi hincludes cache key e he hstale
    exact h.applying now pending hsync i hi hincludes cache key e (lookup_clear he).1 hstale

/-- A result that no invalidation has overtaken may be stored. -/
theorem Coherent.set (h : Coherent counters completed p) (cache : Cache) (key : String)
    (new : Entry α)
    (hnew : ∀ i ∈ completed, Stale new.registries new.readAt i → ¬ Past p cache i) :
    Coherent counters completed (p.withEntries (ExploreCache.set p.entries cache key new)) where
  seen_le := h.seen_le
  sync_le := h.sync_le
  seen_le_sync := h.seen_le_sync
  applied := by
    intro seen hseen i hi hincludes other found e he hstale
    rcases lookup_set he with hset | hold
    · obtain ⟨rfl, rfl⟩ := hset
      exact hnew i hi hstale (.inl ⟨seen, hseen, hincludes⟩)
    · exact h.applied seen hseen i hi hincludes other found e hold hstale
  applying := by
    intro now pending hsync i hi hincludes other found e he hstale
    rcases lookup_set he with hset | hold
    · obtain ⟨rfl, rfl⟩ := hset
      by_contra hnone
      refine hnew i hi hstale (.inr ⟨now, pending, hsync, hincludes, ?_⟩)
      intro d hd hcovers
      exact hnone ⟨d, hd, hcovers⟩
    · exact h.applying now pending hsync i hi hincludes other found e hold hstale

/-- A new announcement is ahead of every counter the replica holds. -/
theorem Coherent.announce (h : Coherent counters completed p) (i : Invalidation) :
    Coherent (bump counters (topic i.target))
      ({ i with count := (counters.lookup (topic i.target)).getD 0 + 1 } :: completed) p where
  seen_le := by
    intro seen hseen
    exact (h.seen_le seen hseen).trans (le_bump counters _)
  sync_le := by
    intro now hnow
    exact (h.sync_le now hnow).trans (le_bump counters _)
  seen_le_sync := h.seen_le_sync
  applied := by
    intro seen hseen j hj hincludes
    rcases List.mem_cons.mp hj with hnew | hold
    · subst hnew
      exact absurd hincludes (not_includes_announced (h.seen_le seen hseen) i)
    · exact h.applied seen hseen j hold hincludes
  applying := by
    intro now pending hsync j hj hincludes
    rcases List.mem_cons.mp hj with hnew | hold
    · subst hnew
      have hle : Le now counters := h.sync_le now (by rw [hsync]; rfl)
      exact absurd hincludes (not_includes_announced hle i)
    · exact h.applying now pending hsync j hold hincludes

theorem Coherent.heartbeat (h : Coherent counters completed p) :
    Coherent counters completed
      (p.withSync (.answered (ExploreCache.heartbeat counters))) where
  seen_le := h.seen_le
  sync_le := by
    intro now hnow
    obtain rfl := Option.some.inj hnow
    exact heartbeat_le counters
  seen_le_sync := by
    intro seen now hseen hnow
    obtain rfl := Option.some.inj hnow
    exact le_heartbeat (h.seen_le seen hseen)
  applied := h.applied
  applying := by
    intro now pending hsync
    exact absurd hsync (by simp [Replica.withSync])

/-- Against counters it has seen, an apply has a clear for every invalidation they do not
include yet; the first one has none and must find nothing stale. -/
theorem Coherent.applyStart (h : Coherent counters completed p) {now : Counters}
    (hsync : p.sync = .answered now) {order : List (Σ _ : String, ℤ)}
    (horder : order.Perm now.entries)
    (hfirst : p.seen = none → ∀ i ∈ completed, Includes now i →
      ∀ cache key e, (p.entries cache).lookup key = some e → ¬ Stale e.registries e.readAt i) :
    Coherent counters completed (p.withSync (.applying now (dropsOf p.seen order))) where
  seen_le := h.seen_le
  sync_le := by
    intro now' hnow'
    obtain rfl := Option.some.inj hnow'
    exact h.sync_le _ (by rw [hsync]; rfl)
  seen_le_sync := by
    intro seen now' hseen hnow'
    obtain rfl := Option.some.inj hnow'
    exact h.seen_le_sync seen _ hseen (by rw [hsync]; rfl)
  applied := h.applied
  applying := by
    intro now' pending hsync' i hi hincludes cache key e he hstale
    simp only [Replica.withSync, Sync.applying.injEq] at hsync'
    obtain ⟨rfl, rfl⟩ := hsync'
    cases hseen : p.seen with
    | none => exact absurd hstale (hfirst hseen i hi hincludes cache key e he)
    | some previous =>
      have hnot : ¬ Includes previous i := by
        intro hprevious
        exact h.applied previous hseen i hi hprevious cache key e he hstale
      obtain ⟨g, hg, hcount⟩ := hincludes
      have htarget : i.target = none ∨ i.target = some i.registry := by
        unfold Invalidation.target
        split
        · exact .inl rfl
        · exact .inr rfl
      have hmem : ⟨topic i.target, g⟩ ∈ order :=
        horder.mem_iff.mpr ((lookup_eq_some_iff now _ g).mp hg)
      refine exists_covering_drop cache htarget hmem ?_
      intro hsame
      exact hnot ⟨g, hsame, hcount⟩

/-- One clear of an apply: what it covered is gone, so what is stale waits for a later one. -/
theorem Coherent.applyDrop (h : Coherent counters completed p) {now : Counters} {d : Drop}
    {rest : List Drop} (hsync : p.sync = .applying now (d :: rest)) :
    Coherent counters completed ⟨d.apply p.entries, p.seen, .applying now rest⟩ where
  seen_le := h.seen_le
  sync_le := by
    intro now' hnow'
    obtain rfl := Option.some.inj hnow'
    exact h.sync_le _ (by rw [hsync]; rfl)
  seen_le_sync := by
    intro seen now' hseen hnow'
    obtain rfl := Option.some.inj hnow'
    exact h.seen_le_sync seen _ hseen (by rw [hsync]; rfl)
  applied := by
    intro seen hseen i hi hincludes cache key e he
    exact h.applied seen hseen i hi hincludes cache key e (lookup_clear he).1
  applying := by
    intro now' pending hsync' i hi hincludes cache key e he hstale
    simp only [Sync.applying.injEq] at hsync'
    obtain ⟨rfl, rfl⟩ := hsync'
    obtain ⟨hold, hnot⟩ := lookup_clear he
    obtain ⟨d', hd', hcovers⟩ :=
      h.applying _ _ hsync i hi hincludes cache key e hold hstale
    rcases List.mem_cons.mp hd' with hhead | hrest
    · subst hhead
      exact absurd hcovers (hnot i.registry hstale.1)
    · exact ⟨d', hrest, hcovers⟩

/-- With no clear left, nothing stale is cached under the counters applied. -/
theorem Coherent.applyEnd (h : Coherent counters completed p) {now : Counters}
    (hsync : p.sync = .applying now []) :
    Coherent counters completed ⟨p.entries, some now, .waiting⟩ where
  seen_le := by
    intro seen hseen
    obtain rfl := Option.some.inj hseen
    exact h.sync_le _ (by rw [hsync]; rfl)
  sync_le := by simp [Sync.counters]
  seen_le_sync := by simp [Sync.counters]
  applied := by
    intro seen hseen i hi hincludes cache key e he hstale
    obtain rfl := Option.some.inj hseen
    obtain ⟨d, hd, -⟩ := h.applying _ _ hsync i hi hincludes cache key e he hstale
    simp at hd
  applying := by simp

end Replica

/-- Every replica is coherent with the shared counters. -/
def AllCoherent (w : World α) : Prop :=
  ∀ r, Coherent w.counters w.completed (w.replicas r)

theorem AllCoherent.setReplica {w : World α} (h : AllCoherent w) {r : ℕ} {p : Replica α}
    (hp : Coherent w.counters w.completed p) : AllCoherent (w.setReplica r p) := by
  intro r'
  unfold World.setReplica
  by_cases hr : r' = r
  · subst hr
    simp only [Function.update_self]
    exact hp
  · simp only [Function.update_of_ne hr]
    exact h r'

theorem AllCoherent.announce {w : World α} (h : AllCoherent w) (i : Invalidation)
    (advanced : Bool) : AllCoherent (w.announce i advanced) := by
  cases advanced with
  | false => exact h
  | true =>
    intro r
    exact (h r).announce i

theorem step_allCoherent (w : World α) (event : Event α) (h : AllCoherent w)
    (hguard : NoLateSet w event) : AllCoherent (step w event) := by
  cases event with
  | readDb id r cache key value registries => exact h
  | writeDb id r registry => exact h
  | set id now =>
    simp only [step]
    split
    · rename_i r cache key value registries readAt htask
      refine AllCoherent.setReplica h ((h r).set cache key _ ?_)
      exact hguard r cache key value registries readAt htask
    · exact h
  | clearPackages id whole =>
    simp only [step]
    split
    · exact AllCoherent.setReplica h ((h _).clear _)
    · exact h
  | clearStats id =>
    simp only [step]
    split
    · exact AllCoherent.setReplica h ((h _).clear _)
    · exact h
  | bump id advanced =>
    simp only [step]
    split
    · rename_i i htask
      exact AllCoherent.announce h i advanced
    · exact h
  | heartbeat r =>
    simp only [step]
    split
    · exact h.setReplica (h r).heartbeat
    · exact h
  | applyStart r order =>
    simp only [step]
    split
    · rename_i now hsync
      split
      · rename_i horder
        exact h.setReplica ((h r).applyStart hsync (List.isPerm_iff.mp horder) (hguard now hsync))
      · exact h
    · exact h
  | applyDrop r =>
    simp only [step]
    split
    · rename_i now d rest hsync
      exact h.setReplica ((h r).applyDrop hsync)
    · exact h
  | applyEnd r =>
    simp only [step]
    split
    · rename_i now hsync
      exact h.setReplica ((h r).applyEnd hsync)
    · exact h

theorem mem_completed_step {w : World α} {i : Invalidation} (hi : i ∈ w.completed)
    (event : Event α) : i ∈ (step w event).completed := by
  cases event with
  | bump id advanced =>
    simp only [step]
    split
    · rename_i j htask
      cases advanced with
      | false => exact hi
      | true => exact List.mem_cons_of_mem _ hi
    · exact hi
  | applyStart r order =>
    simp only [step]
    split
    · split <;> exact hi
    · exact hi
  | _ =>
    simp only [step]
    try split
    all_goals exact hi

theorem applied_setReplica {w : World α} {r r' : ℕ} {i : Invalidation} (h : Applied w r' i)
    {p : Replica α}
    (hp : ∀ seen, (w.replicas r).seen = some seen → Includes seen i →
      ∃ seen', p.seen = some seen' ∧ Includes seen' i) : Applied (w.setReplica r p) r' i := by
  obtain ⟨seen, hseen, hincludes⟩ := h
  unfold Applied World.setReplica
  by_cases hr : r' = r
  · subst hr
    simp only [Function.update_self]
    exact hp seen hseen hincludes
  · simp only [Function.update_of_ne hr]
    exact ⟨seen, hseen, hincludes⟩

/-- Counters that were applied stay applied: the loop holds only counters read later. -/
theorem applied_step {w : World α} (hw : AllCoherent w) {r : ℕ} {i : Invalidation}
    (h : Applied w r i) (event : Event α) : Applied (step w event) r i := by
  have hsame : ∀ {r' : ℕ} {p : Replica α}, p.seen = (w.replicas r').seen →
      Applied (w.setReplica r' p) r i := by
    intro r' p hp
    refine applied_setReplica h ?_
    intro seen hseen hincludes
    exact ⟨seen, hp.trans hseen, hincludes⟩
  cases event with
  | readDb id r' cache key value registries => exact h
  | writeDb id r' registry => exact h
  | set id now =>
    simp only [step]
    split
    · exact hsame rfl
    · exact h
  | clearPackages id whole =>
    simp only [step]
    split
    · exact hsame rfl
    · exact h
  | clearStats id =>
    simp only [step]
    split
    · exact hsame rfl
    · exact h
  | bump id advanced =>
    simp only [step]
    split
    · cases advanced <;> exact h
    · exact h
  | heartbeat r' =>
    simp only [step]
    split
    · exact hsame rfl
    · exact h
  | applyStart r' order =>
    simp only [step]
    split
    · split
      · exact hsame rfl
      · exact h
    · exact h
  | applyDrop r' =>
    simp only [step]
    split
    · exact hsame rfl
    · exact h
  | applyEnd r' =>
    simp only [step]
    split
    · rename_i now hsync
      refine applied_setReplica h ?_
      intro seen hseen hincludes
      have hle : Le seen now :=
        (hw r').seen_le_sync seen now hseen (by rw [hsync]; rfl)
      exact ⟨now, rfl, hincludes.mono hle⟩
    · exact h

/-- The invariant carried past the apply: the invalidation is completed and applied. -/
def Settled (r : ℕ) (i : Invalidation) (w : World α) : Prop :=
  AllCoherent w ∧ i ∈ w.completed ∧ Applied w r i

theorem step_settled (r : ℕ) (i : Invalidation) (w : World α) (event : Event α)
    (h : Settled r i w) (hguard : NoLateSet w event) : Settled r i (step w event) := by
  obtain ⟨hw, hi, happlied⟩ := h
  exact ⟨step_allCoherent w event hw hguard, mem_completed_step hi event,
    applied_step hw happlied event⟩

theorem allCoherent_initial : AllCoherent (World.initial α) := by
  intro r
  exact coherent_started

/-- Once an invalidation is complete and a replica has applied counters that include it, no
hit of that replica is an entry of the registry read before the write, at any later time. -/
theorem hit_not_stale (ttl : DateTime) (before after : List (Event α))
    (hguard : Guarded step NoLateSet (World.initial α) (before ++ after))
    (i : Invalidation) (hi : i ∈ (run step (World.initial α) before).completed)
    (r : ℕ) (happlied : Applied (run step (World.initial α) before) r i)
    (cache : Cache) (key : String) (now : DateTime) (e : Entry α)
    (hhit : hit ttl ((run step (World.initial α) (before ++ after)).replicas r).entries cache key
      now = some e) :
    ¬ Stale e.registries e.readAt i := by
  rw [guarded_append] at hguard
  have hbefore : AllCoherent (run step (World.initial α) before) :=
    run_keeps NoLateSet AllCoherent step_allCoherent _ before allCoherent_initial hguard.1
  have hafter : Settled r i (run step (run step (World.initial α) before) after) :=
    run_keeps NoLateSet (Settled r i) (step_settled r i) _ after ⟨hbefore, hi, happlied⟩ hguard.2
  rw [← run_append] at hafter
  obtain ⟨hw, hi', seen, hseen, hincludes⟩ := hafter
  exact (hw r).applied seen hseen i hi' hincludes cache key e (hit_eq_some hhit)

/-- A write to one registry, on replica 0, and its invalidation. -/
def npmWrite : List (Event ℕ) :=
  [.writeDb 1 0 "npm", .clearPackages 1 false, .clearStats 1, .bump 1 true]

def npmInvalidation : Invalidation := ⟨"npm", false, 1, 1⟩

/-- A listing of that registry read before the write. -/
def npmListing (replica : ℕ) : Event ℕ := .readDb 0 replica .packages "exp:pkg" 7 ["npm"]

/-- Replica 0 takes its first counters before anything is cached. -/
def firstSync : List (Event ℕ) := [.heartbeat 0, .applyStart 0 [], .applyEnd 0]

def secondSync : List (Event ℕ) :=
  [.heartbeat 0, .applyStart 0 [⟨"explore:npm", 1⟩], .applyDrop 0, .applyDrop 0, .applyEnd 0]

/-- The listing is stored before the write, and again after a read that follows the apply. -/
def coherentBefore : List (Event ℕ) :=
  firstSync ++ [npmListing 0, .set 0 0] ++ npmWrite ++ secondSync

def coherentAfter : List (Event ℕ) := [npmListing 0, .set 0 5]

/-- The listing is stored once the invalidation has been applied. -/
def lateSet : List (Event ℕ) :=
  firstSync ++ [npmListing 0] ++ npmWrite ++ secondSync ++ [.set 0 5]

/-- The listing is cached by a replica whose first counters already include the write. -/
def unseenReplica : List (Event ℕ) :=
  [npmListing 1, .set 0 0] ++ npmWrite ++
    [.heartbeat 1, .applyStart 1 [⟨"explore:npm", 1⟩], .applyEnd 1]

theorem coherent_run_guarded :
    Guarded step NoLateSet (World.initial ℕ) (coherentBefore ++ coherentAfter) := by
  have hnone : ∀ {β : Prop} {i : Invalidation}, i ∈ ([] : List Invalidation) → β := by
    intro β i hi
    exact absurd hi List.not_mem_nil
  refine ⟨trivial, ?_, trivial, trivial, ?_, trivial, trivial, trivial, trivial, trivial, ?_,
    trivial, trivial, trivial, trivial, ?_, trivial⟩
  · intro now hsync hseen i hi
    exact hnone hi
  · intro r cache key value registries readAt htask i hi
    exact hnone hi
  · intro now hsync hseen
    exact absurd hseen (by exact Option.some_ne_none _)
  · intro r cache key value registries readAt htask i hi hstale
    obtain rfl : i = npmInvalidation := List.mem_singleton.mp hi
    have hread := Option.some.inj htask
    simp only [Task.reader.injEq] at hread
    obtain ⟨-, -, -, -, -, rfl⟩ := hread
    exact absurd hstale.2 (by decide)

theorem reread_listing_not_stale :
    hit 600 ((run step (World.initial ℕ) (coherentBefore ++ coherentAfter)).replicas 0).entries
        .packages "exp:pkg" 6 = some ⟨7, ["npm"], 5, 2⟩ ∧
      ¬ Stale ["npm"] 2 npmInvalidation := by
  have hhit : hit 600 ((run step (World.initial ℕ) (coherentBefore ++ coherentAfter)).replicas
      0).entries .packages "exp:pkg" 6 = some ⟨7, ["npm"], 5, 2⟩ := rfl
  refine ⟨hhit, ?_⟩
  exact hit_not_stale 600 coherentBefore coherentAfter coherent_run_guarded npmInvalidation
    List.mem_cons_self 0 ⟨_, rfl, 1, rfl, by decide⟩ .packages "exp:pkg" 6 _ hhit

/-- The replica has applied the completed invalidation and still answers a query from an
entry of its registry that is older than its write. -/
def ServesStale (w : World ℕ) (r : ℕ) (i : Invalidation) : Prop :=
  i ∈ w.completed ∧ Applied w r i ∧
    ∃ e, hit 600 (w.replicas r).entries .packages "exp:pkg" 6 = some e ∧
      Stale e.registries e.readAt i

/-- Both ways to lose an invalidation: the result stored after the clear, and the entry
cached before the replica's first read of the counters. -/
theorem invalidation_lost :
    ServesStale (run step (World.initial ℕ) lateSet) 0 npmInvalidation ∧
      ServesStale (run step (World.initial ℕ) unseenReplica) 1 npmInvalidation := by
  constructor
  · exact ⟨List.mem_cons_self, ⟨_, rfl, 1, rfl, by decide⟩, ⟨7, ["npm"], 5, 0⟩, rfl,
      by decide, by decide⟩
  · exact ⟨List.mem_cons_self, ⟨_, rfl, 1, rfl, by decide⟩, ⟨7, ["npm"], 0, 0⟩, rfl,
      by decide, by decide⟩

end BatleHub.ExploreTraffic
