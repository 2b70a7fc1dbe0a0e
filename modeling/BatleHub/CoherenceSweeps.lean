import BatleHub.RecordedChecksums

/-!
Coherence sweeps over a cache in use (`run_coherence_check`). A live sweep deletes a key
that the sweep before it left pending and for which it finds no row itself; what it has
looked at may have changed by the time it deletes. Two sweeps of a registry never work at
once, so what is pending stands still meanwhile. Where no fetch is between its two writes
of a pending key when a sweep takes the lock, and none writes one until it gives it back,
every key it deletes is an orphan. A dry run decides the same way and leaves everything
as it is.
-/
namespace BatleHub.ProxyCache

open Lib AssocMap Integrity

section Deletions
variable (lib : Hashes) (startsLikeScript : Bytes → Bool)

/-- A live sweep that has decided to delete the key. -/
def Task.deletes (key : String) : Task → Bool
  | .sweep c (.deleting k _) => !c.dryRun && decide (k = key)
  | _ => false

/-- A fetch that has written the key and has yet to record it. -/
def Task.between (key : String) : Task → Bool
  | .fetch f (.recording _) => decide (f.artifactKey = key)
  | _ => false

/-- What a live sweep deletes has no row, and no fetch of it is between its two writes. -/
def SafeDeletion (s : State) (e : Event) : Prop :=
  ∀ id key, e = .advance id none → (s.tasks id).any (Task.deletes key) = true →
    s.world.rows.lookup key = none ∧ ∀ id', (s.tasks id').any (Task.between key) = false

/-- The sweep has the lock on the pending set. -/
def SweepPhase.holding : SweepPhase → Bool
  | .looking _ | .deleting _ _ => true
  | _ => false

/-- A live sweep of the registry that has the lock. -/
def Task.works (registry : String) : Task → Bool
  | .sweep c phase => !c.dryRun && phase.holding && decide (c.registry = registry)
  | _ => false

/-- The step brings its task to where `p` holds. -/
def Becomes (p : Task → Bool) (s : State) (e : Event) : Prop :=
  ∃ id io task, e = .advance id io ∧ s.tasks id = some task ∧ p task = false ∧
    p (advance lib startsLikeScript s.world id io task).2 = true

/-- A live sweep of the registry takes the lock. -/
def Locks (registry : String) : State → Event → Prop :=
  Becomes lib startsLikeScript (Task.works registry)

/-- A live sweep of the registry puts what it leaves pending in place and gives the lock back. -/
def Returns (registry : String) : State → Event → Prop :=
  Becomes lib startsLikeScript fun task => !task.works registry

/-- A fetch writes the key, by a store or a promotion. -/
def Writes (key : String) : State → Event → Prop :=
  Becomes lib startsLikeScript (Task.between key)

/-- Where a live sweep takes the lock, no fetch is between its two writes of a pending key;
and while it has the lock, no fetch writes one. -/
def Harmless (s : State) (e : Event) : Prop :=
  (∀ registry, Locks lib startsLikeScript registry s e → ∀ key ∈ s.world.pending registry,
    ∀ id, (s.tasks id).any (Task.between key) = false) ∧
  ∀ key, Writes lib startsLikeScript key s e → ∀ id registry,
    (s.tasks id).any (Task.works registry) = true → key ∉ s.world.pending registry

/-- No fetch writes a key that a live sweep has left pending. -/
def NoRefetch (s : State) (e : Event) : Prop :=
  ∀ key, Writes lib startsLikeScript key s e → ∀ registry, key ∉ s.world.pending registry

/-- A fetch that is between its two writes when a live sweep gives the lock back has left
there when the next one of the registry takes it. -/
def Brief (w : World) (events : List Event) : Prop :=
  ∀ before e mid e' after registry, events = before ++ e :: (mid ++ e' :: after) →
    Returns lib startsLikeScript registry (run lib startsLikeScript (.initial w) before) e →
    Locks lib startsLikeScript registry
      (run lib startsLikeScript (.initial w) (before ++ e :: mid)) e' →
    ∀ id key,
      ((run lib startsLikeScript (.initial w) (before ++ [e])).tasks id).any
          (Task.between key) = true →
        ((run lib startsLikeScript (.initial w) (before ++ e :: mid)).tasks id).any
          (Task.between key) = false

/-- A row without a checksum is listed by every sweep that lists its key. -/
def Filed (w : World) : Prop :=
  ∀ key row, w.rows.lookup key = some row → row.checksum = none →
    ∀ c : Sweep, Texts.startsWith key c.keyPrefix = true →
      c.registry = "" ∨ row.registry = c.registry

end Deletions

section Rows
variable (lib : Hashes) (startsLikeScript : Bytes → Bool) (w : World) (id : ℕ)
  (io : Option CoreError) (task : Task)

/-- The rows stay, lose one, or get the one a fetch records. -/
theorem rows_advance :
    (advance lib startsLikeScript w id io task).1.rows = w.rows ∨
      (∃ key, (advance lib startsLikeScript w id io task).1.rows = w.rows.erase key) ∨
      ∃ f outcome, task = .fetch f (.recording outcome) ∧
        (advance lib startsLikeScript w id io task).1 =
          w.recordArtifact f.artifactKey (f.row outcome) := by
  have hloses : ∀ (w' : World) (k : String), (w' = w ∨ w' = w.delete k ∨ w' = w.forget k) →
      w'.rows = w.rows ∨ ∃ key, w'.rows = w.rows.erase key := by
    rintro w' k (rfl | rfl | rfl)
    · exact .inl rfl
    · exact .inl rfl
    · exact .inr ⟨k, rfl⟩
  cases task with
  | fetch f phase =>
    obtain ⟨w', phase', hadvance, hspec⟩ := advance_fetch lib startsLikeScript w id io f phase
    rw [hadvance]
    cases hspec with
    | recorded outcome => exact .inr (.inr ⟨f, outcome, rfl, rfl⟩)
    | _ => exact .inl rfl
  | serve r phase =>
    rcases hloses _ _ (advanceServe_world lib w r io phase) with hsame | hlost
    · exact .inl hsame
    · exact .inr (.inl hlost)
  | evict k phase =>
    rcases hloses _ _ (advanceEvict_world w k io phase) with hsame | hlost
    · exact .inl hsame
    · exact .inr (.inl hlost)
  | sweep c phase =>
    obtain ⟨w', phase', hadvance, hspec⟩ := advance_sweep lib startsLikeScript w id io c phase
    rw [hadvance]
    cases hspec <;> exact .inl rfl

/-- A row without a checksum was there before. -/
theorem unsummed_advance {key : String} {row : MetaRow}
    (hrow : (advance lib startsLikeScript w id io task).1.rows.lookup key = some row)
    (hnone : row.checksum = none) : w.rows.lookup key = some row := by
  rcases rows_advance lib startsLikeScript w id io task with hsame | ⟨k, herased⟩ |
      ⟨f, outcome, rfl, hrecorded⟩
  · rwa [hsame] at hrow
  · rw [herased, lookup_erase_eq] at hrow
    split at hrow
    · cases hrow
    · exact hrow
  · rw [hrecorded] at hrow
    simp only [World.recordArtifact, lookup_insert_eq] at hrow
    split at hrow
    · obtain rfl := Option.some.inj hrow
      cases hold : w.rows.lookup f.artifactKey <;> simp [hold, upserted, Fetch.row] at hnone
    · exact hrow

end Rows

section Sweeping
variable (lib : Hashes) (startsLikeScript : Bytes → Bool)

/-- Every row without a checksum that the sweep could take for missing is on its list. -/
def Covered (w : World) (c : Sweep) (metaKeys : List String) : Prop :=
  ∀ key row, w.rows.lookup key = some row → row.checksum = none →
    Texts.startsWith key c.keyPrefix = true → key ∈ metaKeys

/-- What a sweep has listed. -/
def ListedOk (w : World) (c : Sweep) : SweepPhase → Prop
  | .listing | .done _ => True
  | .listingRows keys => ∀ key ∈ keys, Texts.startsWith key c.keyPrefix = true
  | .locking keys metaKeys =>
    (∀ key ∈ keys, Texts.startsWith key c.keyPrefix = true) ∧ Covered w c metaKeys
  | .looking scan | .deleting _ scan =>
    (∀ key ∈ scan.todo, Texts.startsWith key c.keyPrefix = true) ∧ Covered w c scan.metaKeys

structure SweepInv (s : State) : Prop where
  filed : Filed s.world
  listed : ∀ id c phase, s.tasks id = some (.sweep c phase) → ListedOk s.world c phase
  locked : ∀ id c phase, s.tasks id = some (.sweep c phase) → phase.holding = true →
    s.world.sweeping c.registry = some id
  /-- Nobody is between two writes of a key that a live sweep may delete. -/
  quiet : ∀ id registry, (s.tasks id).any (Task.works registry) = true →
    ∀ key ∈ s.world.pending registry, ∀ id', (s.tasks id').any (Task.between key) = false
  /-- A key that a live sweep is about to delete has no row, and was pending. -/
  orphaned : ∀ id key, (s.tasks id).any (Task.deletes key) = true →
    s.world.rows.lookup key = none ∧ ∃ registry, (s.tasks id).any (Task.works registry) = true ∧
      key ∈ s.world.pending registry

variable {lib startsLikeScript}

theorem ListedOk.of_rows {w w' : World} {c : Sweep} {phase : SweepPhase} (h : ListedOk w c phase)
    (hrows : ∀ key row, w'.rows.lookup key = some row → row.checksum = none →
      w.rows.lookup key = some row) : ListedOk w' c phase := by
  have hcovered : ∀ metaKeys, Covered w c metaKeys → Covered w' c metaKeys :=
    fun metaKeys hc key row hrow hnone => hc key row (hrows key row hrow hnone) hnone
  cases phase with
  | locking keys metaKeys => exact ⟨h.1, hcovered _ h.2⟩
  | looking scan => exact ⟨h.1, hcovered _ h.2⟩
  | deleting key scan => exact ⟨h.1, hcovered _ h.2⟩
  | _ => exact h

theorem ListedOk.of_step {w w' : World} {id : ℕ} {c : Sweep} {io : Option CoreError}
    {phase phase' : SweepPhase} (hfiled : Filed w) (h : ListedOk w c phase)
    (hstep : SweepStep w id c io phase w' phase') : ListedOk w c phase' := by
  cases hstep with
  | listed =>
    intro key hkey
    exact (List.mem_filter.mp hkey).2
  | listedRows keys =>
    refine ⟨h, ?_⟩
    intro key row hrow hnone hlead
    have hregistry := hfiled key row hrow hnone c hlead
    refine List.mem_map.mpr ⟨⟨key, row⟩, List.mem_filter.mpr ⟨?_, ?_⟩, rfl⟩
    · exact (lookup_eq_some_iff _ _ _).mp hrow
    · rw [decide_eq_true_iff]
      exact hregistry
  | passed key todo metaKeys stillOrphaned still' deleted =>
    exact ⟨fun k hk => h.1 k (List.mem_cons_of_mem key hk), h.2⟩
  | decided key todo metaKeys stillOrphaned deleted hmeta hchecksum =>
    exact ⟨fun k hk => h.1 k (List.mem_cons_of_mem key hk), h.2⟩
  | waited | locked | spared | deleted => exact h
  | _ => trivial

/-- A sweep finds a row it has listed, or the checksum of one that came later. -/
theorem lookup_of_decided {w : World} {c : Sweep} {key : String}
    {todo metaKeys stillOrphaned deleted : List String}
    (h : ListedOk w c (.looking ⟨key :: todo, metaKeys, stillOrphaned, deleted⟩))
    (hmeta : key ∉ metaKeys) (hchecksum : w.getArtifactChecksum key = none) :
    w.rows.lookup key = none := by
  cases hrow : w.rows.lookup key with
  | none => rfl
  | some row =>
    rw [World.getArtifactChecksum, hrow, Option.bind_some] at hchecksum
    exact absurd (h.2 key row hrow hchecksum (h.1 key List.mem_cons_self)) hmeta

theorem works_eq_true_iff {registry : String} {task : Task} :
    task.works registry = true ↔ ∃ c phase, task = .sweep c phase ∧ c.dryRun = false ∧
      phase.holding = true ∧ c.registry = registry := by
  cases task with
  | sweep c phase => simp [Task.works, and_assoc]
  | _ => simp [Task.works]

theorem not_works_request (registry : String) (request : Request) :
    request.task.works registry = false := by
  cases request <;> simp [Request.task, Task.works, SweepPhase.holding]

theorem not_between_request (key : String) (request : Request) :
    request.task.between key = false := by
  cases request <;> rfl

theorem not_deletes_request (key : String) (request : Request) :
    request.task.deletes key = false := by
  cases request <;> rfl

theorem not_between_of_works {registry key : String} {task : Task}
    (h : task.works registry = true) : task.between key = false := by
  cases task with
  | fetch f phase => cases h
  | _ => rfl

/-- A sweep decides where it finds no row of a key that is pending. -/
theorem pending_of_deletes {s : State} (hinv : SweepInv s) {id : ℕ} {io : Option CoreError}
    {task : Task} (htask : s.tasks id = some task) {key : String}
    (hafter : (advance lib startsLikeScript s.world id io task).2.deletes key = true) :
    s.world.rows.lookup key = none ∧ ∃ registry, task.works registry = true ∧
      (advance lib startsLikeScript s.world id io task).2.works registry = true ∧
      key ∈ s.world.pending registry := by
  cases task with
  | sweep c phase =>
    obtain ⟨w', phase', hadvance, hspec⟩ := advance_sweep lib startsLikeScript s.world id io c phase
    rw [hadvance] at hafter ⊢
    cases hspec with
    | decided k todo metaKeys stillOrphaned deleted hmeta hchecksum hpending =>
      obtain ⟨hlive, rfl⟩ : c.dryRun = false ∧ k = key := by
        simpa [Task.deletes] using hafter
      refine ⟨lookup_of_decided (hinv.listed id c _ htask) hmeta hchecksum, c.registry, ?_, ?_,
        hpending⟩
      · exact works_eq_true_iff.mpr ⟨c, _, rfl, hlive, rfl, rfl⟩
      · exact works_eq_true_iff.mpr ⟨c, _, rfl, hlive, rfl, rfl⟩
    | _ => cases hafter
  | _ => cases hafter

/-- What is pending changes when a live sweep gives the lock back. -/
theorem pending_advance (w : World) (id : ℕ) (io : Option CoreError) (task : Task)
    (registry : String) :
    (advance lib startsLikeScript w id io task).1.pending registry = w.pending registry ∨
      task.works registry = true ∧
        (advance lib startsLikeScript w id io task).2.works registry = false := by
  cases task with
  | fetch f phase =>
    obtain ⟨w', phase', hadvance, hspec⟩ := advance_fetch lib startsLikeScript w id io f phase
    rw [hadvance]
    cases hspec <;> exact .inl rfl
  | serve r phase =>
    left
    show (advanceServe lib w r io phase).1.pending registry = _
    rcases advanceServe_world lib w r io phase with h | h | h <;> rw [h] <;> rfl
  | evict k phase =>
    left
    show (advanceEvict w k io phase).1.pending registry = _
    rcases advanceEvict_world w k io phase with h | h | h <;> rw [h] <;> rfl
  | sweep c phase =>
    obtain ⟨w', phase', hadvance, hspec⟩ := advance_sweep lib startsLikeScript w id io c phase
    rw [hadvance]
    cases hspec with
    | closed metaKeys stillOrphaned deleted =>
      by_cases hdry : c.dryRun = true
      · left
        rw [if_pos hdry]
      · by_cases hregistry : c.registry = registry
        · right
          exact ⟨by simp [Task.works, hdry, hregistry, SweepPhase.holding],
            by simp [Task.works, SweepPhase.holding]⟩
        · left
          rw [if_neg hdry]
          exact Function.update_of_ne (Ne.symm hregistry) _ _
    | _ => exact .inl rfl

/-- The lock changes hands where it is free, or where the sweep that has it gives it back. -/
theorem sweeping_advance (w : World) (id : ℕ) (io : Option CoreError) (task : Task)
    (registry : String) :
    (advance lib startsLikeScript w id io task).1.sweeping registry = w.sweeping registry ∨
      w.sweeping registry = none ∨
      ∃ c phase, task = .sweep c phase ∧ phase.holding = true ∧ c.registry = registry := by
  cases task with
  | fetch f phase =>
    obtain ⟨w', phase', hadvance, hspec⟩ := advance_fetch lib startsLikeScript w id io f phase
    rw [hadvance]
    cases hspec <;> exact .inl rfl
  | serve r phase =>
    left
    show (advanceServe lib w r io phase).1.sweeping registry = _
    rcases advanceServe_world lib w r io phase with h | h | h <;> rw [h] <;> rfl
  | evict k phase =>
    left
    show (advanceEvict w k io phase).1.sweeping registry = _
    rcases advanceEvict_world w k io phase with h | h | h <;> rw [h] <;> rfl
  | sweep c phase =>
    obtain ⟨w', phase', hadvance, hspec⟩ := advance_sweep lib startsLikeScript w id io c phase
    rw [hadvance]
    by_cases hregistry : registry = c.registry
    · cases hspec with
      | locked keys metaKeys hfree => exact .inr (.inl (hregistry ▸ hfree))
      | closed metaKeys stillOrphaned deleted =>
        exact .inr (.inr ⟨c, _, rfl, rfl, hregistry.symm⟩)
      | _ => exact .inl rfl
    · left
      cases hspec with
      | locked keys metaKeys hfree => exact Function.update_of_ne hregistry _ _
      | closed metaKeys stillOrphaned deleted => exact Function.update_of_ne hregistry _ _
      | _ => rfl

/-- The sweep that has the lock after its step had it before, or has taken it. -/
theorem sweeping_of_holding {w : World} {id : ℕ} {io : Option CoreError} {c : Sweep}
    {phase phase' : SweepPhase} {w' : World} (hspec : SweepStep w id c io phase w' phase')
    (hafter : phase'.holding = true)
    (hlock : phase.holding = true → w.sweeping c.registry = some id) :
    w'.sweeping c.registry = some id := by
  cases hspec with
  | locked keys metaKeys hfree => exact Function.update_self _ _ _
  | passed | decided | spared | deleted => exact hlock rfl
  | _ => cases hafter

/-- A call that starts has neither listed nor decided anything. -/
theorem sweepInv_start {s : State} (hinv : SweepInv s) {id : ℕ} (hfree : s.tasks id = none)
    (request : Request) :
    SweepInv ⟨s.world, Function.update s.tasks id (some request.task)⟩ := by
  have hold : ∀ (p : Task → Bool), p request.task = false → ∀ id',
      (Function.update s.tasks id (some request.task) id').any p = (s.tasks id').any p := by
    intro p hp id'
    by_cases hid : id' = id
    · simp [hid, hp, hfree]
    · simp [hid]
  refine ⟨hinv.filed, ?_, ?_, ?_, ?_⟩
  · intro id' c phase htask
    by_cases hid : id' = id
    · cases request with
      | sweep c' =>
        obtain ⟨rfl, rfl⟩ : c' = c ∧ SweepPhase.listing = phase := by
          simpa [hid, Request.task] using htask
        trivial
      | _ => simp [hid, Request.task] at htask
    · exact hinv.listed id' c phase (by simpa [hid] using htask)
  · intro id' c phase htask hholding
    by_cases hid : id' = id
    · cases request with
      | sweep c' =>
        obtain ⟨rfl, rfl⟩ : c' = c ∧ SweepPhase.listing = phase := by
          simpa [hid, Request.task] using htask
        cases hholding
      | _ => simp [hid, Request.task] at htask
    · exact hinv.locked id' c phase (by simpa [hid] using htask) hholding
  · intro id' registry hworks key hpending other
    rw [hold _ (not_works_request registry request)] at hworks
    exact (hold _ (not_between_request key request) other).trans
      (hinv.quiet id' registry hworks key hpending other)
  · intro id' key hdeletes
    rw [hold _ (not_deletes_request key request)] at hdeletes
    obtain ⟨hrow, registry, hworks, hpending⟩ := hinv.orphaned id' key hdeletes
    exact ⟨hrow, registry, (hold _ (not_works_request registry request) id').trans hworks, hpending⟩

/-- A key without a row gets one from a fetch that is between its two writes only. -/
theorem lookup_none_advance {s : State} {id : ℕ} {io : Option CoreError} {task : Task}
    (htask : s.tasks id = some task) {key : String} (hnone : s.world.rows.lookup key = none)
    (hbetween : (s.tasks id).any (Task.between key) = false) :
    (advance lib startsLikeScript s.world id io task).1.rows.lookup key = none := by
  rcases rows_advance lib startsLikeScript s.world id io task with hsame | ⟨k, herased⟩ |
      ⟨f, outcome, rfl, hrecorded⟩
  · exact (congrArg (fun m => AList.lookup key m) hsame).trans hnone
  · rw [herased, lookup_erase_eq]
    split
    · rfl
    · exact hnone
  · have hne : key ≠ f.artifactKey := by
      rintro rfl
      rw [htask] at hbetween
      simp [Task.between] at hbetween
    rw [hrecorded]
    simp [World.recordArtifact, hne, hnone]

/-- While a live sweep works, nobody changes what is pending in its registry. -/
theorem pending_of_works {s : State} (hinv : SweepInv s) {id : ℕ} {io : Option CoreError}
    {task : Task} (htask : s.tasks id = some task) {registry : String} {id' : ℕ}
    (hworks : (Function.update s.tasks id
      (some (advance lib startsLikeScript s.world id io task).2) id').any (Task.works registry) =
        true) :
    (advance lib startsLikeScript s.world id io task).1.pending registry =
      s.world.pending registry := by
  rcases pending_advance s.world id io task registry with hsame | ⟨hheld, hleft⟩
  · exact hsame
  · -- the sweep that returns had the lock, and no other sweep of the registry can have it
    by_cases hid : id' = id
    · rw [hid, Function.update_self, Option.any_some, hleft] at hworks
      cases hworks
    · rw [Function.update_of_ne hid] at hworks
      obtain ⟨c, phase, rfl, -, hholding, hregistry⟩ := works_eq_true_iff.mp hheld
      cases hother : s.tasks id' with
      | none => simp [hother] at hworks
      | some other =>
        rw [hother, Option.any_some] at hworks
        obtain ⟨c', phase', rfl, -, hholding', hregistry'⟩ := works_eq_true_iff.mp hworks
        have hlock := hinv.locked id c phase htask hholding
        have hlock' := hinv.locked id' c' phase' hother hholding'
        rw [hregistry] at hlock
        rw [hregistry', hlock] at hlock'
        exact absurd (Option.some.inj hlock').symm hid

section Advance
variable {s : State} {id : ℕ} {io : Option CoreError} {task : Task}

theorem listed_advance (hinv : SweepInv s) (htask : s.tasks id = some task) {id' : ℕ} {c : Sweep}
    {phase : SweepPhase} (htask' : Function.update s.tasks id
      (some (advance lib startsLikeScript s.world id io task).2) id' = some (.sweep c phase)) :
    ListedOk (advance lib startsLikeScript s.world id io task).1 c phase := by
  refine ListedOk.of_rows ?_ fun key row hrow hnone =>
    unsummed_advance lib startsLikeScript s.world id io task hrow hnone
  by_cases hid : id' = id
  · subst hid
    cases task with
    | sweep c' phase₀ =>
      obtain ⟨w', phase', hadvance, hspec⟩ :=
        advance_sweep lib startsLikeScript s.world id' io c' phase₀
      rw [hadvance] at htask'
      obtain ⟨rfl, rfl⟩ : c' = c ∧ phase' = phase := by simpa using htask'
      exact (hinv.listed id' c' phase₀ htask).of_step hinv.filed hspec
    | _ => simp [advance] at htask'
  · exact hinv.listed id' c phase (by simpa [hid] using htask')

theorem locked_advance (hinv : SweepInv s) (htask : s.tasks id = some task) {id' : ℕ} {c : Sweep}
    {phase : SweepPhase} (htask' : Function.update s.tasks id
      (some (advance lib startsLikeScript s.world id io task).2) id' = some (.sweep c phase))
    (hholding : phase.holding = true) :
    (advance lib startsLikeScript s.world id io task).1.sweeping c.registry = some id' := by
  by_cases hid : id' = id
  · subst hid
    cases task with
    | sweep c' phase₀ =>
      obtain ⟨w', phase', hadvance, hspec⟩ :=
        advance_sweep lib startsLikeScript s.world id' io c' phase₀
      rw [hadvance] at htask' ⊢
      obtain ⟨rfl, rfl⟩ : c' = c ∧ phase' = phase := by simpa using htask'
      exact sweeping_of_holding hspec hholding (hinv.locked id' c' phase₀ htask)
    | _ => simp [advance] at htask'
  · have hlock := hinv.locked id' c phase (by simpa [hid] using htask') hholding
    rcases sweeping_advance s.world id io task c.registry with hsame | hfree |
        ⟨c', phase', rfl, hholding', hregistry⟩
    · exact hsame.trans hlock
    · rw [hfree] at hlock
      cases hlock
    · have hlock' := hinv.locked id c' phase' htask hholding'
      rw [hregistry, hlock] at hlock'
      exact absurd (Option.some.inj hlock') hid

/-- Behind the step a live sweep works with a pending key: before it nobody was between two
writes of the key. -/
theorem quiet_before (hinv : SweepInv s) (htask : s.tasks id = some task)
    (hharmless : Harmless lib startsLikeScript s (.advance id io)) {id' : ℕ} {registry key : String}
    (hworks : (Function.update s.tasks id
      (some (advance lib startsLikeScript s.world id io task).2) id').any (Task.works registry) =
        true)
    (hpending : key ∈ s.world.pending registry) (other : ℕ) :
    (s.tasks other).any (Task.between key) = false := by
  by_cases hheld : (s.tasks id').any (Task.works registry) = true
  · exact hinv.quiet id' registry hheld key hpending other
  · by_cases hid : id' = id
    · subst hid
      have hlocks : Locks lib startsLikeScript registry s (.advance id' io) :=
        ⟨id', io, task, rfl, htask, by simpa [htask] using hheld, by simpa using hworks⟩
      exact hharmless.1 registry hlocks key hpending other
    · rw [Function.update_of_ne hid] at hworks
      exact absurd hworks hheld

theorem quiet_advance (hinv : SweepInv s) (htask : s.tasks id = some task)
    (hharmless : Harmless lib startsLikeScript s (.advance id io)) {id' : ℕ} {registry key : String}
    (hworks : (Function.update s.tasks id
      (some (advance lib startsLikeScript s.world id io task).2) id').any (Task.works registry) =
        true)
    (hpending : key ∈ (advance lib startsLikeScript s.world id io task).1.pending registry)
    (other : ℕ) :
    (Function.update s.tasks id (some (advance lib startsLikeScript s.world id io task).2)
      other).any (Task.between key) = false := by
  replace hpending : key ∈ s.world.pending registry :=
    pending_of_works hinv htask hworks ▸ hpending
  have hbefore := quiet_before hinv htask hharmless hworks hpending
  by_cases hother : other = id
  · subst hother
    rw [Function.update_self, Option.any_some, Bool.eq_false_iff]
    intro hafter
    by_cases hid : id' = other
    · rw [hid, Function.update_self, Option.any_some] at hworks
      rw [not_between_of_works hworks] at hafter
      cases hafter
    · rw [Function.update_of_ne hid] at hworks
      have hnot : task.between key = false := by simpa [htask] using hbefore other
      exact hharmless.2 key ⟨other, io, task, rfl, htask, hnot, hafter⟩ id' registry hworks
        hpending
  · rw [Function.update_of_ne hother]
    exact hbefore other

theorem orphaned_advance (hinv : SweepInv s) (htask : s.tasks id = some task) {id' : ℕ}
    {key : String} (hdeletes : (Function.update s.tasks id
      (some (advance lib startsLikeScript s.world id io task).2) id').any (Task.deletes key) =
        true) :
    (advance lib startsLikeScript s.world id io task).1.rows.lookup key = none ∧
      ∃ registry, (Function.update s.tasks id
          (some (advance lib startsLikeScript s.world id io task).2) id').any
            (Task.works registry) = true ∧
        key ∈ (advance lib startsLikeScript s.world id io task).1.pending registry := by
  obtain ⟨hrow, registry, hheld, hworks, hpending⟩ : s.world.rows.lookup key = none ∧
      ∃ registry, (s.tasks id').any (Task.works registry) = true ∧
        (Function.update s.tasks id
          (some (advance lib startsLikeScript s.world id io task).2) id').any
            (Task.works registry) = true ∧ key ∈ s.world.pending registry := by
    by_cases hid : id' = id
    · subst hid
      obtain ⟨hrow, registry, hheld, hworks, hpending⟩ :=
        pending_of_deletes hinv htask (by simpa using hdeletes)
      exact ⟨hrow, registry, by simpa [htask] using hheld, by simpa using hworks, hpending⟩
    · obtain ⟨hrow, registry, hheld, hpending⟩ :=
        hinv.orphaned id' key (by simpa [hid] using hdeletes)
      exact ⟨hrow, registry, hheld, by simpa [hid] using hheld, hpending⟩
  refine ⟨?_, registry, hworks, ?_⟩
  · exact lookup_none_advance htask hrow (hinv.quiet id' registry hheld key hpending id)
  · rw [pending_of_works hinv htask hworks]
    exact hpending

theorem sweepInv_advance (hinv : SweepInv s) (htask : s.tasks id = some task)
    (hharmless : Harmless lib startsLikeScript s (.advance id io)) :
    SweepInv ⟨(advance lib startsLikeScript s.world id io task).1,
      Function.update s.tasks id (some (advance lib startsLikeScript s.world id io task).2)⟩ where
  filed key row hrow hnone := hinv.filed key row
    (unsummed_advance lib startsLikeScript s.world id io task hrow hnone) hnone
  listed _ _ _ := listed_advance hinv htask
  locked _ _ _ := locked_advance hinv htask
  quiet _ _ hworks _ := quiet_advance hinv htask hharmless hworks
  orphaned _ _ := orphaned_advance hinv htask

end Advance

theorem sweepInv_step {s : State} {e : Event} (hinv : SweepInv s)
    (hharmless : Harmless lib startsLikeScript s e) : SweepInv (step lib startsLikeScript s e) := by
  rcases step_cases lib startsLikeScript s e with hsame | ⟨id, request, rfl, hfree, hstep⟩ |
      ⟨id, io, task, rfl, htask, hstep⟩
  · rw [hsame]
    exact hinv
  · rw [hstep]
    exact sweepInv_start hinv hfree request
  · rw [hstep]
    exact sweepInv_advance hinv htask hharmless

/-- In a harmless run a live sweep deletes orphans only. -/
theorem safeDeletion_run {s : State} {events : List Event} (hinv : SweepInv s)
    (hguard : Runs.Guarded (step lib startsLikeScript) (Harmless lib startsLikeScript) s events) :
    Runs.Guarded (step lib startsLikeScript) SafeDeletion s events := by
  refine Runs.guarded_of_inv (Harmless lib startsLikeScript) SafeDeletion SweepInv
    (fun _ _ h he => sweepInv_step h he) ?_ s events hinv hguard
  rintro s _ h - id key rfl hdeletes
  obtain ⟨hrow, registry, hworks, hpending⟩ := h.orphaned id key hdeletes
  exact ⟨hrow, h.quiet id registry hworks key hpending⟩

end Sweeping

section Refetching
variable {lib : Hashes} {startsLikeScript : Bytes → Bool} {w : World}

/-- A task that is where `p` holds has been brought there, where no call starts there. -/
theorem becomes_of_step {p : Task → Bool} (hrequest : ∀ request : Request, p request.task = false)
    {s : State} {e : Event} {id : ℕ} (hbefore : (s.tasks id).any p = false)
    (hafter : ((step lib startsLikeScript s e).tasks id).any p = true) :
    Becomes lib startsLikeScript p s e := by
  rcases step_cases lib startsLikeScript s e with hsame | ⟨id', request, rfl, hfree, hstep⟩ |
      ⟨id', io, task, rfl, htask, hstep⟩
  · rw [hsame, hbefore] at hafter
    cases hafter
  · rw [hstep] at hafter
    by_cases hid : id = id'
    · simp [hid, hrequest] at hafter
    · simp [hid, hbefore] at hafter
  · rw [hstep] at hafter
    by_cases hid : id = id'
    · subst hid
      exact ⟨id, io, task, rfl, htask, by simpa [htask] using hbefore, by simpa using hafter⟩
    · simp [hid, hbefore] at hafter

variable (lib startsLikeScript) in
theorem pending_step (s : State) (e : Event) (registry : String) :
    (step lib startsLikeScript s e).world.pending registry = s.world.pending registry ∨
      Returns lib startsLikeScript registry s e := by
  rcases step_cases lib startsLikeScript s e with hsame | ⟨id, request, rfl, -, hstep⟩ |
      ⟨id, io, task, rfl, htask, hstep⟩
  · exact .inl (by rw [hsame])
  · exact .inl (by rw [hstep])
  · rw [hstep]
    rcases pending_advance s.world id io task registry with hsame | ⟨hheld, hleft⟩
    · exact .inl hsame
    · exact .inr ⟨id, io, task, rfl, htask, by simp [hheld], by simp [hleft]⟩

/-- Where no pending key is written, a fetch that is between its two writes of one was so
already when a live sweep left the key pending. -/
theorem between_since_return {events : List Event}
    (hguard : Runs.Guarded (step lib startsLikeScript) (NoRefetch lib startsLikeScript) (.initial w)
      events) {registry key : String} {id : ℕ}
    (hpending : key ∈ (run lib startsLikeScript (.initial w) events).world.pending registry)
    (hbetween : ((run lib startsLikeScript (.initial w) events).tasks id).any
      (Task.between key) = true) :
    ∃ before e mid, events = before ++ e :: mid ∧
      Returns lib startsLikeScript registry (run lib startsLikeScript (.initial w) before) e ∧
      ((run lib startsLikeScript (.initial w) (before ++ [e])).tasks id).any
        (Task.between key) = true := by
  -- back from the last event to the return after which what is pending has not changed
  induction events using List.reverseRecOn with
  | nil => cases hbetween
  | append_singleton events e ih =>
    have hlast : run lib startsLikeScript (.initial w) (events ++ [e]) =
        step lib startsLikeScript (run lib startsLikeScript (.initial w) events) e := by
      rw [run_append]
      rfl
    rw [Runs.guarded_append] at hguard
    rcases pending_step lib startsLikeScript (run lib startsLikeScript (.initial w) events) e
      registry with hsame | hreturns
    · rw [hlast] at hbetween hpending
      rw [hsame] at hpending
      cases hbefore : ((run lib startsLikeScript (.initial w) events).tasks id).any
          (Task.between key) with
      | true =>
        obtain ⟨before, e', mid, rfl, hreturns, hthen⟩ := ih hguard.1 hpending hbefore
        exact ⟨before, e', mid ++ [e], by simp, hreturns, hthen⟩
      | false =>
        have hwrites := becomes_of_step (not_between_request key) hbefore hbetween
        exact absurd hpending (hguard.2.1 key hwrites registry)
    · exact ⟨events, e, [], rfl, hreturns, hbetween⟩

/-- Where no pending key is written again and fetches are brief, the run is harmless. -/
theorem harmless_of_brief {events : List Event}
    (hguard : Runs.Guarded (step lib startsLikeScript) (NoRefetch lib startsLikeScript) (.initial w)
      events) (hbrief : Brief lib startsLikeScript w events) :
    Runs.Guarded (step lib startsLikeScript) (Harmless lib startsLikeScript) (.initial w)
      events := by
  induction events using List.reverseRecOn with
  | nil => trivial
  | append_singleton events e ih =>
    have hearlier := (Runs.guarded_append _ _ _ _).mp hguard
    refine (Runs.guarded_append _ _ _ _).mpr ⟨ih hearlier.1 ?_, ⟨?_, ?_⟩, trivial⟩
    · intro before e₁ mid e₂ after registry heq
      exact hbrief before e₁ mid e₂ (after ++ [e]) registry (by simp [heq])
    · intro registry htakes key hpending id
      rw [Bool.eq_false_iff]
      intro hbetween
      obtain ⟨before, e₁, mid, rfl, hreturns, hthen⟩ :=
        between_since_return hearlier.1 hpending hbetween
      have hleft := hbrief before e₁ mid e [] registry (by simp) hreturns htakes id key hthen
      exact Bool.false_ne_true (hleft.symm.trans hbetween)
    · intro key hwrites id registry _
      exact hearlier.2.1 key hwrites registry

end Refetching

section DryRuns
variable {lib : Hashes} {startsLikeScript : Bytes → Bool} {D : ℕ → Prop} {s t : State}

/-- Nothing but dry runs, under these ids. -/
def DryEvent (D : ℕ → Prop) : Event → Prop
  | .start id (.sweep c) => D id ∧ c.dryRun = true
  | .start _ _ => False
  | .advance id _ => D id

/-- Nothing under these ids. -/
def Avoids (D : ℕ → Prop) : Event → Prop
  | .start id _ => ¬D id
  | .advance id _ => ¬D id

def Task.swept : Task → Bool
  | .sweep _ (.done _) => true
  | _ => false

/-- The state as dry runs leave it, but for the locks they hold. -/
structure Previewed (D : ℕ → Prop) (s t : State) : Prop where
  objects : t.world.objects = s.world.objects
  rows : t.world.rows = s.world.rows
  pending : t.world.pending = s.world.pending
  others : ∀ id, ¬D id → t.tasks id = s.tasks id
  dry : ∀ id task, D id → t.tasks id = some task →
    ∃ c phase, task = .sweep c phase ∧ c.dryRun = true ∧
      (phase.holding = true → t.world.sweeping c.registry = some id ∧
        s.world.sweeping c.registry = none)
  locks : ∀ registry, t.world.sweeping registry = s.world.sweeping registry ∨
    ∃ id c phase, D id ∧ t.tasks id = some (.sweep c phase) ∧ c.registry = registry ∧
      phase.holding = true

theorem Previewed.of_start (h : Previewed D s t) {id : ℕ} (hfree : t.tasks id = none) (hid : D id)
    {c : Sweep} (hdry : c.dryRun = true) :
    Previewed D s ⟨t.world, Function.update t.tasks id (some (.sweep c .listing))⟩ where
  objects := h.objects
  rows := h.rows
  pending := h.pending
  others := by
    intro id' hid'
    have hne : id' ≠ id := fun heq => hid' (heq ▸ hid)
    simpa [hne] using h.others id' hid'
  dry := by
    intro id' task hid' htask
    by_cases hsame : id' = id
    · obtain rfl : Task.sweep c .listing = task := by simpa [hsame] using htask
      exact ⟨c, .listing, rfl, hdry, fun hholding => by cases hholding⟩
    · exact h.dry id' task hid' (by simpa [hsame] using htask)
  locks := by
    intro registry
    rcases h.locks registry with hlock | ⟨id', c', phase, hid', htask, hrest⟩
    · exact .inl hlock
    · have hne : id' ≠ id := by
        rintro rfl
        rw [hfree] at htask
        cases htask
      exact .inr ⟨id', c', phase, hid', by simpa [hne] using htask, hrest⟩

/-- A dry run that goes on without the lock changing hands. -/
theorem Previewed.of_phase (h : Previewed D s t) {id : ℕ} {c : Sweep} {phase phase' : SweepPhase}
    (hid : D id) (htask : t.tasks id = some (.sweep c phase))
    (hholding : phase'.holding = phase.holding) :
    Previewed D s ⟨t.world, Function.update t.tasks id (some (.sweep c phase'))⟩ where
  objects := h.objects
  rows := h.rows
  pending := h.pending
  others := by
    intro id' hid'
    have hne : id' ≠ id := fun heq => hid' (heq ▸ hid)
    simpa [hne] using h.others id' hid'
  dry := by
    intro id' task hid' htask'
    by_cases hsame : id' = id
    · obtain rfl : Task.sweep c phase' = task := by simpa [hsame] using htask'
      obtain ⟨c', ph, heq, hdry, hlock⟩ := h.dry id _ hid htask
      obtain ⟨rfl, rfl⟩ : c = c' ∧ phase = ph := by simpa using heq
      subst hsame
      exact ⟨c, phase', rfl, hdry, fun hnow => hlock (hholding ▸ hnow)⟩
    · exact h.dry id' task hid' (by simpa [hsame] using htask')
  locks := by
    intro registry
    rcases h.locks registry with hlock | ⟨id', c', ph, hid', htask', hregistry, hold⟩
    · exact .inl hlock
    · by_cases hsame : id' = id
      · subst hsame
        obtain ⟨rfl, rfl⟩ : c = c' ∧ phase = ph := by simpa using htask.symm.trans htask'
        exact .inr ⟨id', c, phase', hid, by simp, hregistry, hholding.trans hold⟩
      · exact .inr ⟨id', c', ph, hid', by simpa [hsame] using htask', hregistry, hold⟩

/-- A dry run takes a lock that was free before the dry runs. -/
theorem Previewed.of_locked (h : Previewed D s t) {id : ℕ} {c : Sweep} {keys metaKeys : List String}
    (hid : D id) (htask : t.tasks id = some (.sweep c (.locking keys metaKeys)))
    (hfree : t.world.sweeping c.registry = none) :
    Previewed D s ⟨{ t.world with
        sweeping := Function.update t.world.sweeping c.registry (some id) },
      Function.update t.tasks id (some (.sweep c (.looking ⟨keys, metaKeys, [], []⟩)))⟩ := by
  obtain ⟨c', ph, heq, hdry, -⟩ := h.dry id _ hid htask
  obtain ⟨rfl, rfl⟩ : c = c' ∧ SweepPhase.locking keys metaKeys = ph := by simpa using heq
  have hbefore : s.world.sweeping c.registry = none := by
    rcases h.locks c.registry with hlock | ⟨id', c', ph, hid', htask', hregistry, hold⟩
    · exact hlock.symm.trans hfree
    · obtain ⟨c'', ph', heq', -, hheld⟩ := h.dry id' _ hid' htask'
      obtain ⟨rfl, rfl⟩ : c' = c'' ∧ ph = ph' := by simpa using heq'
      have hsome := (hheld hold).1
      rw [hregistry, hfree] at hsome
      cases hsome
  refine ⟨h.objects, h.rows, h.pending, ?_, ?_, ?_⟩
  · intro id' hid'
    have hne : id' ≠ id := fun heq => hid' (heq ▸ hid)
    simpa [hne] using h.others id' hid'
  · intro id' task hid' htask'
    by_cases hsame : id' = id
    · subst hsame
      obtain rfl : Task.sweep c (.looking ⟨keys, metaKeys, [], []⟩) = task := by
        simpa using htask'
      exact ⟨c, _, rfl, hdry, fun _ => ⟨Function.update_self _ _ _, hbefore⟩⟩
    · obtain ⟨c', ph, rfl, hdry', hheld⟩ := h.dry id' task hid' (by simpa [hsame] using htask')
      refine ⟨c', ph, rfl, hdry', fun hold => ?_⟩
      obtain ⟨hlock, hnone⟩ := hheld hold
      have hne : c'.registry ≠ c.registry := by
        intro hregistry
        rw [hregistry, hfree] at hlock
        cases hlock
      exact ⟨by simpa [hne] using hlock, hnone⟩
  · intro registry
    by_cases hregistry : registry = c.registry
    · exact .inr ⟨id, c, _, hid, Function.update_self _ _ _, hregistry.symm, rfl⟩
    · rcases h.locks registry with hlock | ⟨id', c', ph, hid', htask', hrest⟩
      · exact .inl (by simpa [hregistry] using hlock)
      · have hne : id' ≠ id := by
          rintro rfl
          obtain ⟨rfl, rfl⟩ : c = c' ∧ SweepPhase.locking keys metaKeys = ph := by
            simpa using htask.symm.trans htask'
          cases hrest.2
        exact .inr ⟨id', c', ph, hid', by simpa [hne] using htask', hrest⟩

/-- A dry run gives the lock back and leaves the pending set. -/
theorem Previewed.of_closed (h : Previewed D s t) {id : ℕ} {c : Sweep} {scan : Scan}
    {deleted : List String} (hid : D id) (htask : t.tasks id = some (.sweep c (.looking scan))) :
    Previewed D s ⟨{ t.world with sweeping := Function.update t.world.sweeping c.registry none },
      Function.update t.tasks id (some (.sweep c (.done deleted)))⟩ := by
  obtain ⟨c', ph, heq, hdry, hheld⟩ := h.dry id _ hid htask
  obtain ⟨rfl, rfl⟩ : c = c' ∧ SweepPhase.looking scan = ph := by simpa using heq
  obtain ⟨hlock, hnone⟩ := hheld rfl
  refine ⟨h.objects, h.rows, h.pending, ?_, ?_, ?_⟩
  · intro id' hid'
    have hne : id' ≠ id := fun heq => hid' (heq ▸ hid)
    simpa [hne] using h.others id' hid'
  · intro id' task hid' htask'
    by_cases hsame : id' = id
    · obtain rfl : Task.sweep c (.done deleted) = task := by simpa [hsame] using htask'
      exact ⟨c, .done deleted, rfl, hdry, fun hholding => by cases hholding⟩
    · obtain ⟨c', ph, rfl, hdry', hheld'⟩ := h.dry id' task hid' (by simpa [hsame] using htask')
      refine ⟨c', ph, rfl, hdry', fun hold => ?_⟩
      obtain ⟨hlock', hnone'⟩ := hheld' hold
      have hne : c'.registry ≠ c.registry := by
        intro hregistry
        rw [hregistry, hlock] at hlock'
        exact hsame (Option.some.inj hlock').symm
      exact ⟨by simpa [hne] using hlock', hnone'⟩
  · intro registry
    by_cases hregistry : registry = c.registry
    · left
      subst hregistry
      exact (Function.update_self _ _ _).trans hnone.symm
    · rcases h.locks registry with hlock' | ⟨id', c', ph, hid', htask', hregistry', hold⟩
      · exact .inl (by simpa [hregistry] using hlock')
      · have hne : id' ≠ id := by
          rintro rfl
          obtain ⟨rfl, rfl⟩ : c = c' ∧ SweepPhase.looking scan = ph := by
            simpa using htask.symm.trans htask'
          exact hregistry hregistry'.symm
        exact .inr ⟨id', c', ph, hid', by simpa [hne] using htask', hregistry', hold⟩

theorem previewed_step {e : Event} (h : Previewed D s t) (hdry : DryEvent D e) :
    Previewed D s (step lib startsLikeScript t e) := by
  rcases step_cases lib startsLikeScript t e with hsame | ⟨id, request, rfl, hfree, hstep⟩ |
      ⟨id, io, task, rfl, htask, hstep⟩
  · rw [hsame]
    exact h
  · rw [hstep]
    cases request with
    | sweep c => exact h.of_start hfree hdry.1 hdry.2
    | _ => exact hdry.elim
  · obtain ⟨c, phase, rfl, hcdry, -⟩ := h.dry id task hdry htask
    obtain ⟨w', phase', hadvance, hspec⟩ :=
      advance_sweep lib startsLikeScript t.world id io c phase
    rw [hstep, hadvance]
    cases hspec with
    | locked keys metaKeys hfree => exact h.of_locked hdry htask hfree
    | closed metaKeys stillOrphaned deleted =>
      rw [if_pos hcdry]
      exact h.of_closed hdry htask
    | deleted key todo metaKeys stillOrphaned deleted hlive =>
      rw [hcdry] at hlive
      cases hlive
    | aborted _ hearly =>
      refine h.of_phase hdry htask ?_
      rcases hearly with rfl | ⟨keys, rfl⟩
      · rfl
      · rfl
    | _ => exact h.of_phase hdry htask rfl

/-- Dry runs that have all returned leave the stores, the pending sets, the locks and the
other tasks as they were. -/
theorem previewed_run {events : List Event} (hfresh : ∀ id, D id → s.tasks id = none)
    (hdry : ∀ e ∈ events, DryEvent D e)
    (hdone : ∀ id task, D id → (run lib startsLikeScript s events).tasks id = some task →
      task.swept = true) :
    (run lib startsLikeScript s events).world = s.world ∧
      ∀ id, ¬D id → (run lib startsLikeScript s events).tasks id = s.tasks id := by
  have hinitial : Previewed D s s := by
    refine ⟨rfl, rfl, rfl, fun _ _ => rfl, ?_, fun _ => .inl rfl⟩
    intro id task hid htask
    rw [hfresh id hid] at htask
    cases htask
  have hend : Previewed D s (run lib startsLikeScript s events) :=
    Runs.run_keeps_of_forall (DryEvent D) (Previewed D s) (fun _ _ h he => previewed_step h he)
      s events hinitial hdry
  generalize run lib startsLikeScript s events = t at hend hdone ⊢
  refine ⟨?_, hend.others⟩
  have hlocks : t.world.sweeping = s.world.sweeping := by
    funext registry
    rcases hend.locks registry with hlock | ⟨id, c, phase, hid, htask, -, hold⟩
    · exact hlock
    · have hswept := hdone id _ hid htask
      cases phase with
      | looking scan => cases hswept
      | deleting key scan => cases hswept
      | _ => cases hold
  obtain ⟨⟨objects, rows, pending, sweeping⟩, tasks⟩ := t
  obtain rfl : objects = s.world.objects := hend.objects
  obtain rfl : rows = s.world.rows := hend.rows
  obtain rfl : pending = s.world.pending := hend.pending
  obtain rfl : sweeping = s.world.sweeping := hlocks
  rfl

/-- What happens under other ids depends on the stores and the tasks there alone. -/
theorem alike_run {events : List Event} (havoids : ∀ e ∈ events, Avoids D e)
    (hworld : t.world = s.world) (htasks : ∀ id, ¬D id → t.tasks id = s.tasks id) :
    ∀ id, ¬D id → (run lib startsLikeScript t events).tasks id =
      (run lib startsLikeScript s events).tasks id := by
  induction events generalizing s t with
  | nil => exact htasks
  | cons e rest ih =>
    have hrest : ∀ e' ∈ rest, Avoids D e' := fun e' he' => havoids e' (List.mem_cons_of_mem e he')
    have hfirst := havoids e List.mem_cons_self
    have hupdate : ∀ (id : ℕ) (task : Task), ∀ id', ¬D id' →
        Function.update t.tasks id (some task) id' = Function.update s.tasks id (some task) id' := by
      intro id task id' hid'
      by_cases hsame : id' = id
      · simp [hsame]
      · simpa [hsame] using htasks id' hid'
    apply ih hrest
    · cases e with
      | start id request =>
        simp only [step, htasks id hfirst]
        cases s.tasks id with
        | none => exact hworld
        | some task => exact hworld
      | advance id io =>
        simp only [step, htasks id hfirst, hworld]
        cases s.tasks id with
        | none => exact hworld
        | some task => rfl
    · cases e with
      | start id request =>
        simp only [step, htasks id hfirst]
        cases s.tasks id with
        | none => exact hupdate id _
        | some task => exact htasks
      | advance id io =>
        simp only [step, htasks id hfirst, hworld]
        cases s.tasks id with
        | none => exact htasks
        | some task => exact hupdate id _

/-- No step of a dry run changes the pending sets or a store. -/
theorem dry_step {id : ℕ} {io : Option CoreError} {c : Sweep} {phase : SweepPhase}
    (htask : s.tasks id = some (.sweep c phase)) (hdry : c.dryRun = true) :
    (step lib startsLikeScript s (.advance id io)).world.objects = s.world.objects ∧
      (step lib startsLikeScript s (.advance id io)).world.rows = s.world.rows ∧
      (step lib startsLikeScript s (.advance id io)).world.pending = s.world.pending := by
  obtain ⟨w', phase', hadvance, hspec⟩ :=
    advance_sweep lib startsLikeScript s.world id io c phase
  simp only [step, htask, hadvance]
  cases hspec with
  | closed metaKeys stillOrphaned deleted =>
    rw [if_pos hdry]
    exact ⟨rfl, rfl, rfl⟩
  | deleted key todo metaKeys stillOrphaned deleted hlive =>
    rw [hdry] at hlive
    cases hlive
  | _ => exact ⟨rfl, rfl, rfl⟩

end DryRuns

section Live
variable {lib : Hashes} {startsLikeScript : Bytes → Bool} {w : World}

/-- In a run whose steps are harmless, a live sweep deletes only keys that have no row and
of which no fetch is between its two writes; and runs are harmless in which no pending key
is written again and no fetch lasts from one live sweep to the next. A dry run changes
neither the pending sets nor a store; and dry runs that start and return between two points
of a run change nothing of what any other task does after them, its deletions included. -/
theorem sweep_never_deletes_a_live_artifact (hfiled : Filed w) (events : List Event) :
    (Runs.Guarded (step lib startsLikeScript) (Harmless lib startsLikeScript) (.initial w) events →
      Runs.Guarded (step lib startsLikeScript) SafeDeletion (.initial w) events) ∧
    (Runs.Guarded (step lib startsLikeScript) (NoRefetch lib startsLikeScript) (.initial w) events →
      Brief lib startsLikeScript w events →
      Runs.Guarded (step lib startsLikeScript) (Harmless lib startsLikeScript) (.initial w)
        events) ∧
    (∀ before id io c phase,
      (run lib startsLikeScript (.initial w) before).tasks id = some (.sweep c phase) →
      c.dryRun = true →
      let s := run lib startsLikeScript (.initial w) before
      let s' := step lib startsLikeScript s (.advance id io)
      s'.world.objects = s.world.objects ∧ s'.world.rows = s.world.rows ∧
        s'.world.pending = s.world.pending) ∧
    ∀ (before dry after : List Event) (D : ℕ → Prop),
      (∀ id, D id → (run lib startsLikeScript (.initial w) before).tasks id = none) →
      (∀ e ∈ dry, DryEvent D e) →
      (∀ id task, D id →
        (run lib startsLikeScript (.initial w) (before ++ dry)).tasks id = some task →
        task.swept = true) →
      (∀ e ∈ after, Avoids D e) →
      ∀ id, ¬D id → (run lib startsLikeScript (.initial w) (before ++ dry ++ after)).tasks id =
        (run lib startsLikeScript (.initial w) (before ++ after)).tasks id := by
  have hinitial : SweepInv (.initial w) := by
    refine ⟨hfiled, ?_, ?_, ?_, ?_⟩
    · intro id c phase htask
      cases htask
    · intro id c phase htask
      cases htask
    · intro id registry hworks
      cases hworks
    · intro id key hdeletes
      cases hdeletes
  refine ⟨safeDeletion_run hinitial, harmless_of_brief, fun before id io c phase => dry_step, ?_⟩
  intro before dry after D hfresh hdry hdone havoids
  rw [run_append] at hdone
  obtain ⟨hworld, htasks⟩ := previewed_run hfresh hdry hdone
  rw [run_append, run_append, run_append]
  exact alike_run havoids hworld htasks

/-- Where nothing is pending, a step is harmless. -/
theorem harmless_of_nothing_pending {s : State} {e : Event} (h : ∀ registry,
    s.world.pending registry = []) : Harmless lib startsLikeScript s e := by
  refine ⟨fun registry _ key hpending => ?_, fun key _ id registry _ hpending => ?_⟩
  · rw [h registry] at hpending
    cases hpending
  · rw [h registry] at hpending
    cases hpending

/-- A fetch that has made its first write is harmless. -/
theorem harmless_of_recording {s : State} {id : ℕ} {io : Option CoreError} {f : Fetch}
    {phase : FetchPhase} (htask : s.tasks id = some (.fetch f phase))
    (hphase : (∃ outcome, phase = .recording outcome) ∨ phase = .retrieving) :
    Harmless lib startsLikeScript s (.advance id io) := by
  obtain ⟨w', phase', hadvance, hspec⟩ :=
    advance_fetch lib startsLikeScript s.world id io f phase
  refine ⟨?_, ?_⟩
  · rintro registry ⟨_, _, task, heq, htask', -, hafter⟩
    cases heq
    obtain rfl : .fetch f phase = task := Option.some.inj (htask.symm.trans htask')
    rw [hadvance] at hafter
    cases hafter
  · rintro key ⟨_, _, task, heq, htask', -, hafter⟩
    cases heq
    obtain rfl : .fetch f phase = task := Option.some.inj (htask.symm.trans htask')
    rw [hadvance] at hafter
    rcases hphase with ⟨outcome, rfl⟩ | rfl
    · cases hspec <;> cases hafter
    · cases hspec
      cases hafter

/-- A sweep, or a fetch that has returned. -/
def Task.settled : Task → Bool
  | .sweep _ _ => true
  | .fetch _ (.finished _) => true
  | _ => false

theorem settled_advance {w : World} {id : ℕ} {io : Option CoreError} {task : Task}
    (h : task.settled = true) :
    (advance lib startsLikeScript w id io task).2.settled = true := by
  cases task with
  | sweep c phase => rfl
  | fetch f phase =>
    cases phase with
    | finished result => rfl
    | _ => cases h
  | _ => cases h

theorem not_between_of_settled {task : Task} (h : task.settled = true) (key : String) :
    task.between key = false := by
  cases task with
  | fetch f phase =>
    cases phase with
    | finished result => rfl
    | _ => cases h
  | _ => rfl

/-- Sweeps among themselves are harmless. -/
theorem harmless_of_settled {s : State} {events : List Event}
    (hsettled : ∀ id, (s.tasks id).all Task.settled = true)
    (hstart : ∀ id request, Event.start id request ∈ events → ∃ c, request = .sweep c) :
    Runs.Guarded (step lib startsLikeScript) (Harmless lib startsLikeScript) s events := by
  induction events generalizing s with
  | nil => trivial
  | cons e rest ih =>
    refine ⟨⟨?_, ?_⟩, ih ?_ fun id request hmem => hstart id request (List.mem_cons_of_mem e hmem)⟩
    · intro registry _ key _ id
      cases htask : s.tasks id with
      | none => rfl
      | some task => exact not_between_of_settled (by simpa [htask] using hsettled id) key
    · rintro key ⟨id, io, task, rfl, htask, -, hafter⟩
      rw [not_between_of_settled
        (settled_advance (by simpa [htask] using hsettled id)) key] at hafter
      cases hafter
    · intro id
      rcases step_cases lib startsLikeScript s e with hsame | ⟨id', request, rfl, -, hstep⟩ |
          ⟨id', io, task, rfl, htask, hstep⟩
      · rw [hsame]
        exact hsettled id
      · rw [hstep]
        by_cases hid : id = id'
        · obtain ⟨c, rfl⟩ := hstart id' request List.mem_cons_self
          simp [hid, Request.task, Task.settled]
        · simpa [hid] using hsettled id
      · rw [hstep]
        by_cases hid : id = id'
        · simpa [hid] using settled_advance (by simpa [htask] using hsettled id')
        · simpa [hid] using hsettled id

def liveSweep : Sweep := ⟨"npm", false⟩

/-- Bytes without a row. -/
def orphanWorld : World := emptyWorld.write (artifactKeyFor (plainFetch []).packageId) [97]

/-- A fetch of another key. -/
def besideFetch : Fetch := { plainFetch [98] with packageId := .new "npm" "right-pad" "1.0.0" }

/-- A live sweep sees the orphan, and the key of a fetch between its two writes. -/
def firstSweep : List Event :=
  .start 0 (.fetch besideFetch) :: List.replicate 2 (.advance 0 none) ++
    .start 1 (.sweep liveSweep) :: List.replicate 6 (.advance 1 none)

/-- The fetch records its row and returns. -/
def restOfFetch : List Event := List.replicate 2 (.advance 0 none)

/-- The next live sweep. -/
def secondSweep : List Event := .start 2 (.sweep liveSweep) :: List.replicate 7 (.advance 2 none)

theorem orphan_goes_with_the_second_sweep :
    (run sampleHashes (fun _ => false) (.initial orphanWorld)
        (firstSweep ++ restOfFetch ++ secondSweep)).world.objects.lookup
          (artifactKeyFor (plainFetch []).packageId) = none ∧
      (run sampleHashes (fun _ => false) (.initial orphanWorld)
        (firstSweep ++ restOfFetch ++ secondSweep)).world.objects.lookup
          besideFetch.artifactKey = some [98] ∧
      Runs.Guarded (step sampleHashes fun _ => false) SafeDeletion (.initial orphanWorld)
        (firstSweep ++ restOfFetch ++ secondSweep) := by
  refine ⟨by decide +kernel, by decide +kernel,
    (sweep_never_deletes_a_live_artifact ?_ _).1 ?_⟩
  · intro key row hrow
    cases hrow
  · rw [Runs.guarded_append, Runs.guarded_append]
    refine ⟨⟨?_, ?_⟩, ?_⟩
    · refine ⟨harmless_of_nothing_pending fun _ => rfl, harmless_of_nothing_pending fun _ => rfl,
        harmless_of_nothing_pending fun _ => rfl, harmless_of_nothing_pending fun _ => rfl,
        harmless_of_nothing_pending fun _ => rfl, harmless_of_nothing_pending fun _ => rfl,
        harmless_of_nothing_pending fun _ => rfl, harmless_of_nothing_pending fun _ => rfl,
        harmless_of_nothing_pending fun _ => rfl, harmless_of_nothing_pending fun _ => rfl,
        trivial⟩
    · exact ⟨harmless_of_recording rfl (.inl ⟨_, rfl⟩), harmless_of_recording rfl (.inr rfl),
        trivial⟩
    · apply harmless_of_settled
      · intro id
        by_cases hid : id = 0 ∨ id = 1
        · rcases hid with rfl | rfl
          · decide +kernel
          · decide +kernel
        · push Not at hid
          have hnone : (run sampleHashes (fun _ => false) (.initial orphanWorld)
              (firstSweep ++ restOfFetch)).tasks id = none := by
            refine tasks_run_eq_none sampleHashes _ rfl fun request hmem => ?_
            simp only [firstSweep, restOfFetch, List.cons_append, List.mem_cons, List.mem_append,
              List.mem_replicate, Event.start.injEq, reduceCtorEq, and_false, false_or,
              or_false] at hmem
            grind
          exact congrArg (Option.all Task.settled) hnone
      · intro id request hmem
        simp only [secondSweep, List.mem_cons, List.mem_replicate, Event.start.injEq, reduceCtorEq,
          and_false, or_false] at hmem
        exact ⟨liveSweep, hmem.2⟩

/-- A fetch is seen between its two writes by a first sweep; the key is recorded, evicted and
fetched again, and a second sweep decides while that fetch is between its two writes. -/
def refetchedEvents : List Event :=
  [.start 0 (.fetch (plainFetch [97])), .advance 0 none, .advance 0 none] ++
    .start 1 (.sweep liveSweep) :: List.replicate 5 (.advance 1 none) ++
    [.advance 0 none, .advance 0 none] ++
    .start 2 (.evict (artifactKeyFor (plainFetch []).packageId)) ::
      List.replicate 2 (.advance 2 none) ++
    [.start 3 (.fetch (plainFetch [97])), .advance 3 none, .advance 3 none] ++
    .start 4 (.sweep liveSweep) :: List.replicate 4 (.advance 4 none)

/-- The second sweep deletes the key, and the fetch records it and finds it gone. -/
def sweptEvents : List Event := [.advance 4 none, .advance 3 none, .advance 3 none]

theorem refetched_key_is_swept :
    (∀ id io, Event.advance id io ∈ refetchedEvents ++ sweptEvents → io = none) ∧
      ¬Runs.Guarded (step sampleHashes fun _ => false) SafeDeletion (.initial emptyWorld)
        (refetchedEvents ++ sweptEvents) := by
  refine ⟨?_, ?_⟩
  · intro id io hmem
    simp only [refetchedEvents, sweptEvents, List.cons_append, List.mem_cons, List.mem_append,
      List.mem_replicate, Event.advance.injEq, reduceCtorEq, List.not_mem_nil, List.nil_append,
      false_or, or_false] at hmem
    grind
  · intro hguard
    rw [Runs.guarded_append] at hguard
    have hdeletes : ((run sampleHashes (fun _ => false) (.initial emptyWorld)
        refetchedEvents).tasks 4).any
          (Task.deletes (artifactKeyFor (plainFetch []).packageId)) = true := by
      decide +kernel
    have hbetween : ((run sampleHashes (fun _ => false) (.initial emptyWorld)
        refetchedEvents).tasks 3).any
          (Task.between (artifactKeyFor (plainFetch []).packageId)) = true := by
      decide +kernel
    have hsafe := (hguard.2.1 4 _ rfl hdeletes).2 3
    exact Bool.false_ne_true (hsafe.symm.trans hbetween)

end Live

end BatleHub.ProxyCache
