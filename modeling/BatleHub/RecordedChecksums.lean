import BatleHub.VerifiedCache

/-!
The checksum recorded for an artifact key beside the bytes stored under it. A fetch writes
the bytes and then the row, in two stores, so what is left at the end are the bytes of
the fetch that wrote last and the row of the fetch that recorded last.
-/
namespace BatleHub.ProxyCache

open Lib AssocMap Integrity

section Watching
variable (lib : Hashes) (startsLikeScript : Bytes → Bool) (key : String)

/-- The digest and the length of the bytes upstream has for a fetch. -/
def Fetch.outcome (f : Fetch) : Option StoreOutcome :=
  match openUpstream startsLikeScript f with
  | .error _ => none
  | .ok stream => (content stream).map (storeOutcomeOf lib)

/-- The fetch that writes the key's bytes as its task goes on like this. -/
def Task.writes : Task → Task → Option Fetch
  | .fetch f (.storing _), .fetch _ (.recording _)
  | .fetch f (.promoting _), .fetch _ (.recording _) => if f.artifactKey = key then some f else none
  | _, _ => none

/-- The fetch that records the key with the next operation of its task. -/
def Task.records : Task → Option Fetch
  | .fetch f (.recording _) => if f.artifactKey = key then some f else none
  | _ => none

/-- A run, with the last fetch that wrote the key and the last that recorded it. -/
structure Watch where
  state : State
  writer : Option Fetch
  recorder : Option Fetch

def watch (h : Watch) (e : Event) : Watch where
  state := step lib startsLikeScript h.state e
  writer :=
    match e with
    | .start _ _ => h.writer
    | .advance id io =>
      ((h.state.tasks id).bind fun task =>
        task.writes key (advance lib startsLikeScript h.state.world id io task).2).or h.writer
  recorder :=
    match e with
    | .start _ _ => h.recorder
    | .advance id _ => ((h.state.tasks id).bind fun task => task.records key).or h.recorder

def watched (w : World) (events : List Event) : Watch :=
  Runs.run (watch lib startsLikeScript key) ⟨.initial w, none, none⟩ events

theorem watched_state (w : World) (events : List Event) :
    (watched lib startsLikeScript key w events).state =
      run lib startsLikeScript (.initial w) events := by
  induction events using List.reverseRecOn with
  | nil => rfl
  | append_singleton events e ih =>
    rw [watched, Runs.run_append, run_append, ← ih]
    rfl

end Watching

section Describing
variable (lib : Hashes)

/-- The row of the key is about the bytes stored there. -/
def Described (w : World) (key : String) : Prop :=
  ∀ data, w.objects.lookup key = some data →
    ∃ row, w.rows.lookup key = some row ∧ row.checksum = some (sha256Hex lib data) ∧
      row.size = some data.length

/-- No reader that re-verifies evicts the entry. -/
def ServedAsIs (w : World) (packageId : PackageId) : Prop :=
  ∀ r : Serve, r.packageId = packageId → ∀ data,
    w.objects.lookup (artifactKeyFor packageId) = some data →
    ∀ reason, reverifyOnServe lib r data (w.getArtifactChecksum (artifactKeyFor packageId)) ≠
      .evicting reason

variable {lib}

theorem Described.servedAsIs {w : World} {packageId : PackageId}
    (h : Described lib w (artifactKeyFor packageId)) : ServedAsIs lib w packageId := by
  intro r _ data hdata reason
  obtain ⟨row, hrow, hchecksum, -⟩ := h data hdata
  have hrecorded : w.getArtifactChecksum (artifactKeyFor packageId) =
      some (sha256Hex lib data) := by
    rw [World.getArtifactChecksum, hrow]
    exact hchecksum
  rw [hrecorded]
  simp only [reverifyOnServe, verify_sha256Hex]
  split
  · simp
  · simp

end Describing

section Steps
variable (lib : Hashes) (startsLikeScript : Bytes → Bool) (packageId : PackageId)

/-- Only fetches are started, and no store fails them. -/
def OnlyFetches : Event → Prop
  | .start _ (.fetch _) => True
  | .start _ _ => False
  | .advance _ io => io = none

/-- What a fetch has in hand is about its own bytes. -/
def PhaseOk (w : World) (id : ℕ) (f : Fetch) : FetchPhase → Prop
  | .storing stream => openUpstream startsLikeScript f = .ok stream
  | .discarding _ | .evicting _ => mustStage lib f = true
  | .promoting outcome =>
    f.outcome lib startsLikeScript = some outcome ∧
      ∀ data, w.objects.lookup (stagingKeyFor id f.artifactKey) = some data →
        storeOutcomeOf lib data = outcome
  | .recording outcome => f.outcome lib startsLikeScript = some outcome
  | _ => True

/-- The bytes at the key are those of the fetch, or as they were. -/
def BytesOf (w₀ w : World) : Option Fetch → Prop
  | none => w.objects.lookup (artifactKeyFor packageId) = w₀.objects.lookup (artifactKeyFor packageId)
  | some f => ∃ data, w.objects.lookup (artifactKeyFor packageId) = some data ∧
      f.outcome lib startsLikeScript = some (storeOutcomeOf lib data)

/-- The row of the key is that of the fetch, or as it was. -/
def RowOf (w₀ w : World) : Option Fetch → Prop
  | none => w.rows.lookup (artifactKeyFor packageId) = w₀.rows.lookup (artifactKeyFor packageId)
  | some f => ∃ row outcome, w.rows.lookup (artifactKeyFor packageId) = some row ∧
      f.outcome lib startsLikeScript = some outcome ∧
      row.checksum = some outcome.contentHash ∧ row.size = some outcome.size

structure WatchOk (w₀ : World) (h : Watch) : Prop where
  fetches : ∀ id task, h.state.tasks id = some task →
    ∃ f phase, task = .fetch f phase ∧ PhaseOk lib startsLikeScript h.state.world id f phase
  bytes : BytesOf lib startsLikeScript packageId w₀ h.state.world h.writer
  row : RowOf lib startsLikeScript packageId w₀ h.state.world h.recorder
  /-- Whoever is about to record has written. -/
  wrote : ∀ id f outcome, h.state.tasks id = some (.fetch f (.recording outcome)) →
    f.artifactKey = artifactKeyFor packageId → h.writer.isSome = true
  records : h.recorder.isSome = true → h.writer.isSome = true
  /-- Whoever has written has recorded, or is about to. -/
  recorded : h.writer.isSome = true → h.recorder.isSome = true ∨
    ∃ id f outcome, h.state.tasks id = some (.fetch f (.recording outcome)) ∧
      f.artifactKey = artifactKeyFor packageId

variable {lib startsLikeScript packageId}

theorem PhaseOk.of_lost {w w' : World} {id : ℕ} {f : Fetch} {phase : FetchPhase}
    (h : PhaseOk lib startsLikeScript w id f phase)
    (hlost : w'.objects.lookup (stagingKeyFor id f.artifactKey) =
        w.objects.lookup (stagingKeyFor id f.artifactKey) ∨
      w'.objects.lookup (stagingKeyFor id f.artifactKey) = none) :
    PhaseOk lib startsLikeScript w' id f phase := by
  cases phase with
  | promoting outcome =>
    refine ⟨h.1, ?_⟩
    intro data hdata
    rcases hlost with hsame | hnone
    · exact h.2 data (hsame.symm.trans hdata)
    · rw [hnone] at hdata
      cases hdata
  | _ => exact h

theorem outcome_eq {f : Fetch} {stream : ByteStream} {data : Bytes}
    (hopen : openUpstream startsLikeScript f = .ok stream) (hcontent : content stream = some data) :
    f.outcome lib startsLikeScript = some (storeOutcomeOf lib data) := by
  rw [Fetch.outcome, hopen]
  show (content stream).map (storeOutcomeOf lib) = _
  rw [hcontent, Option.map_some]

theorem PhaseOk.of_step {w w' : World} {id : ℕ} {f : Fetch} {io : Option CoreError}
    {phase phase' : FetchPhase}
    (hstep : FetchStep lib startsLikeScript w id f io phase w' phase')
    (h : PhaseOk lib startsLikeScript w id f phase) :
    PhaseOk lib startsLikeScript w' id f phase' := by
  cases hstep with
  | opened stream hopen => exact hopen
  | condemned stream data reason hstage => exact hstage
  | broken stream e hstage => exact hstage
  | staged stream data hcontent _ _ =>
    refine ⟨outcome_eq h hcontent, ?_⟩
    intro d hd
    obtain rfl : data = d := by simpa [World.write] using hd
    rfl
  | stored stream data hcontent _ => exact outcome_eq h hcontent
  | promoted outcome data _ => exact h.1
  | _ => trivial

/-- The bytes at the key, as one operation of a fetch leaves them. -/
theorem BytesOf.of_step {w₀ w w' : World} {id : ℕ} {f : Fetch} {io : Option CoreError}
    {phase phase' : FetchPhase} {writer : Option Fetch}
    (hstep : FetchStep lib startsLikeScript w id f io phase w' phase')
    (hphase : PhaseOk lib startsLikeScript w id f phase)
    (h : BytesOf lib startsLikeScript packageId w₀ w writer) :
    BytesOf lib startsLikeScript packageId w₀ w'
      (((Task.fetch f phase).writes (artifactKeyFor packageId) (.fetch f phase')).or writer) := by
  have hkept : ∀ w'' : World, w''.objects.lookup (artifactKeyFor packageId) =
      w.objects.lookup (artifactKeyFor packageId) →
      BytesOf lib startsLikeScript packageId w₀ w'' writer := by
    intro w'' hsame
    cases writer with
    | none => exact hsame.trans h
    | some g =>
      obtain ⟨data, hdata, houtcome⟩ := h
      exact ⟨data, hsame.trans hdata, houtcome⟩
  have hne : ∀ k, artifactKeyFor packageId ≠ stagingKeyFor id k :=
    fun k => (stagingKeyFor_ne_artifactKeyFor id k packageId).symm
  cases hstep with
  | condemned stream data reason _ => exact hkept _ (by simp [World.write, hne])
  | staged stream data _ _ _ => exact hkept _ (by simp [World.write, hne])
  | stored stream data hcontent _ =>
    by_cases hkey : f.artifactKey = artifactKeyFor packageId
    · simp only [Task.writes, hkey, if_true]
      exact ⟨data, by simp [World.write], outcome_eq hphase hcontent⟩
    · simp only [Task.writes, hkey, if_false, Option.none_or]
      exact hkept _ (by simp [World.write, Ne.symm hkey])
  | discarded e =>
    have hstore : storeKey lib id f = stagingKeyFor id f.artifactKey := if_pos hphase
    exact hkept _ (by simp [World.delete, hstore, hne])
  | evicted reason =>
    have hstore : storeKey lib id f = stagingKeyFor id f.artifactKey := if_pos hphase
    exact hkept _ (by simp [World.delete, hstore, hne])
  | promoted outcome data hstaged =>
    obtain rfl := hphase.2 data hstaged
    by_cases hkey : f.artifactKey = artifactKeyFor packageId
    · simp only [Task.writes, hkey, if_true]
      exact ⟨data, by simp [World.write, World.delete, hne], hphase.1⟩
    · simp only [Task.writes, hkey, if_false, Option.none_or]
      exact hkept _ (by simp [World.write, World.delete, hne, Ne.symm hkey])
  | _ => exact hkept _ rfl

/-- The row of the key, as one operation of a fetch leaves it. -/
theorem RowOf.of_step {w₀ w w' : World} {id : ℕ} {f : Fetch} {phase phase' : FetchPhase}
    {recorder : Option Fetch}
    (hstep : FetchStep lib startsLikeScript w id f none phase w' phase')
    (hphase : PhaseOk lib startsLikeScript w id f phase)
    (h : RowOf lib startsLikeScript packageId w₀ w recorder) :
    RowOf lib startsLikeScript packageId w₀ w'
      (((Task.fetch f phase).records (artifactKeyFor packageId)).or recorder) := by
  cases hstep with
  | recorded outcome =>
    by_cases hkey : f.artifactKey = artifactKeyFor packageId
    · simp only [Task.records, hkey, if_true]
      refine ⟨upserted (f.row outcome) (w.rows.lookup (artifactKeyFor packageId)), outcome,
        by simp [World.recordArtifact], hphase, ?_⟩
      cases w.rows.lookup (artifactKeyFor packageId) with
      | none => exact ⟨rfl, rfl⟩
      | some old => exact ⟨rfl, rfl⟩
    · simp only [Task.records, hkey, if_false, Option.none_or]
      have hsame : (w.recordArtifact f.artifactKey (f.row outcome)).rows.lookup
          (artifactKeyFor packageId) = w.rows.lookup (artifactKeyFor packageId) := by
        simp [World.recordArtifact, Ne.symm hkey]
      cases recorder with
      | none => exact hsame.trans h
      | some g =>
        obtain ⟨row, o, hrow, hrest⟩ := h
        exact ⟨row, o, hsame.trans hrow, hrest⟩
  | unrecorded outcome hio => exact absurd rfl hio
  | _ => exact h

/-- Started tasks change neither the stores nor what has been written or recorded. -/
theorem WatchOk.of_start {w₀ : World} {h : Watch} (hok : WatchOk lib startsLikeScript packageId w₀ h)
    {id : ℕ} (hfree : h.state.tasks id = none) (f : Fetch) :
    WatchOk lib startsLikeScript packageId w₀
      ⟨⟨h.state.world, Function.update h.state.tasks id (some (.fetch f .fetching))⟩, h.writer,
        h.recorder⟩ where
  fetches := by
    intro id' task htask
    by_cases hid : id' = id
    · obtain rfl : Task.fetch f .fetching = task := by simpa [hid] using htask
      exact ⟨f, .fetching, rfl, trivial⟩
    · exact hok.fetches id' task (by simpa [hid] using htask)
  bytes := hok.bytes
  row := hok.row
  wrote := by
    intro id' g outcome htask
    by_cases hid : id' = id
    · simp [hid] at htask
    · exact hok.wrote id' g outcome (by simpa [hid] using htask)
  records := hok.records
  recorded := by
    intro hwriter
    rcases hok.recorded hwriter with hrecorder | ⟨id', g, outcome, htask, hkey⟩
    · exact .inl hrecorder
    · have hid : id' ≠ id := by
        rintro rfl
        rw [hfree] at htask
        cases htask
      exact .inr ⟨id', g, outcome, by simpa [hid] using htask, hkey⟩

/-- The fetches that write and record, in the phases they go through. -/
theorem writes_or_records {w w' : World} {id : ℕ} {f : Fetch} {io : Option CoreError}
    {phase phase' : FetchPhase} (key : String)
    (hstep : FetchStep lib startsLikeScript w id f io phase w' phase') :
    (f.artifactKey = key → (∃ outcome, phase' = .recording outcome) →
        (Task.fetch f phase).writes key (.fetch f phase') = some f) ∧
      (((Task.fetch f phase).writes key (.fetch f phase')).isSome = true →
        f.artifactKey = key ∧ ∃ outcome, phase' = .recording outcome) ∧
      (((Task.fetch f phase).records key).isSome = true →
        f.artifactKey = key ∧ ∃ outcome, phase = .recording outcome) := by
  cases hstep with
  | stored stream data _ _ | promoted outcome data _ | recorded outcome | unrecorded outcome _ =>
    by_cases hkey : f.artifactKey = key
    · simp [Task.writes, Task.records, hkey]
    · simp [Task.writes, Task.records, hkey]
  | _ => simp [Task.writes, Task.records]

theorem WatchOk.of_advance {w₀ : World} {h : Watch}
    (hok : WatchOk lib startsLikeScript packageId w₀ h) {id : ℕ} {f : Fetch} {phase : FetchPhase}
    (htask : h.state.tasks id = some (.fetch f phase)) {w' : World} {phase' : FetchPhase}
    (hstep : FetchStep lib startsLikeScript h.state.world id f none phase w' phase')
    (hlost : ∀ id', id' ≠ id → ∀ key, w'.objects.lookup (stagingKeyFor id' key) =
        h.state.world.objects.lookup (stagingKeyFor id' key) ∨
      w'.objects.lookup (stagingKeyFor id' key) = none) :
    WatchOk lib startsLikeScript packageId w₀
      ⟨⟨w', Function.update h.state.tasks id (some (.fetch f phase'))⟩,
        ((Task.fetch f phase).writes (artifactKeyFor packageId) (.fetch f phase')).or h.writer,
        ((Task.fetch f phase).records (artifactKeyFor packageId)).or h.recorder⟩ := by
  obtain ⟨g, ph, heq, hphase⟩ := hok.fetches id _ htask
  obtain ⟨rfl, rfl⟩ : f = g ∧ phase = ph := by simpa using heq
  obtain ⟨hwrites, hwritten, hrecording⟩ := writes_or_records (artifactKeyFor packageId) hstep
  constructor
  · intro id' task htask'
    by_cases hid : id' = id
    · subst hid
      obtain rfl : Task.fetch f phase' = task := by simpa using htask'
      exact ⟨f, phase', rfl, hphase.of_step hstep⟩
    · obtain ⟨g, ph, rfl, hother⟩ := hok.fetches id' task (by simpa [hid] using htask')
      exact ⟨g, ph, rfl, hother.of_lost (hlost id' hid _)⟩
  · exact hok.bytes.of_step hstep hphase
  · exact hok.row.of_step hstep hphase
  · intro id' g outcome htask' hkey
    by_cases hid : id' = id
    · obtain ⟨rfl, rfl⟩ : f = g ∧ phase' = .recording outcome := by simpa [hid] using htask'
      simp [hwrites hkey ⟨outcome, rfl⟩]
    · have hold := hok.wrote id' g outcome (by simpa [hid] using htask') hkey
      simp [Option.isSome_or, hold]
  · intro hrecorder
    rw [Option.isSome_or, Bool.or_eq_true] at hrecorder ⊢
    rcases hrecorder with hnow | hbefore
    · obtain ⟨hkey, outcome, rfl⟩ := hrecording hnow
      exact .inr (hok.wrote id f outcome htask hkey)
    · exact .inr (hok.records hbefore)
  · intro hwriter
    rw [Option.isSome_or, Bool.or_eq_true] at hwriter
    rw [Option.isSome_or, Bool.or_eq_true]
    rcases hwriter with hnow | hbefore
    · obtain ⟨hkey, outcome, rfl⟩ := hwritten hnow
      exact .inr ⟨id, f, outcome, by simp, hkey⟩
    · rcases hok.recorded hbefore with hrecorder | ⟨id', g, outcome, htask', hkey⟩
      · exact .inl (.inr hrecorder)
      · by_cases hid : id' = id
        · -- the fetch that was about to record does so now
          subst hid
          obtain ⟨rfl, rfl⟩ : f = g ∧ phase = .recording outcome := by
            simpa using htask.symm.trans htask'
          exact .inl (.inl (by simp [Task.records, hkey]))
        · exact .inr ⟨id', g, outcome, by simpa [hid] using htask', hkey⟩

theorem watchOk_step {w₀ : World} {h : Watch} {e : Event}
    (hok : WatchOk lib startsLikeScript packageId w₀ h) (honly : OnlyFetches e) :
    WatchOk lib startsLikeScript packageId w₀
      (watch lib startsLikeScript (artifactKeyFor packageId) h e) := by
  cases e with
  | start id request =>
    cases htask : h.state.tasks id with
    | some task =>
      simp only [watch, step, htask]
      exact hok
    | none =>
      cases request with
      | fetch f =>
        simp only [watch, step, htask]
        exact hok.of_start htask f
      | _ => cases honly
  | advance id io =>
    cases htask : h.state.tasks id with
    | none =>
      simp only [watch, step, htask, Option.bind_none, Option.none_or]
      exact hok
    | some task =>
      obtain rfl : io = none := honly
      obtain ⟨f, phase, rfl, -⟩ := hok.fetches id task htask
      obtain ⟨w', phase', hadvance, hstep⟩ :=
        advance_fetch lib startsLikeScript h.state.world id none f phase
      have hlost : ∀ id', id' ≠ id → ∀ key, w'.objects.lookup (stagingKeyFor id' key) =
          h.state.world.objects.lookup (stagingKeyFor id' key) ∨
          w'.objects.lookup (stagingKeyFor id' key) = none := by
        intro id' hid key
        have hother := lookup_staging_of_other lib startsLikeScript h.state.world none
          (.fetch f phase) hid key
        rwa [hadvance] at hother
      simp only [watch, step, htask, Option.bind_some, hadvance]
      exact hok.of_advance htask hstep hlost

end Steps

section Finished
variable {lib : Hashes} {startsLikeScript : Bytes → Bool} {packageId : PackageId} {w : World}

/-- The task has returned. -/
def Task.over : Task → Bool
  | .fetch _ (.failed _) | .fetch _ (.finished _) => true
  | _ => false

theorem watchOk_run {events : List Event} (honly : ∀ e ∈ events, OnlyFetches e) :
    WatchOk lib startsLikeScript packageId w
      (watched lib startsLikeScript (artifactKeyFor packageId) w events) := by
  have hinitial : WatchOk lib startsLikeScript packageId w ⟨.initial w, none, none⟩ := by
    refine ⟨?_, rfl, rfl, ?_, fun h => h, ?_⟩
    · intro id task htask
      cases htask
    · intro id f outcome htask
      cases htask
    · intro hnone
      cases hnone
  exact Runs.run_keeps_of_forall OnlyFetches _ (fun _ _ hok he => watchOk_step hok he) _ events
    hinitial honly

/-- Bytes and row of two fetches go together where the fetches have the same bytes. -/
theorem described_iff {w' : World} {f g : Fetch}
    (hbytes : BytesOf lib startsLikeScript packageId w w' (some f))
    (hrow : RowOf lib startsLikeScript packageId w w' (some g)) :
    Described lib w' (artifactKeyFor packageId) ↔
      f.outcome lib startsLikeScript = g.outcome lib startsLikeScript := by
  obtain ⟨data, hdata, hf⟩ := hbytes
  obtain ⟨row, outcome, hlookup, hg, hchecksum, hsize⟩ := hrow
  rw [hf, hg, Option.some.injEq]
  constructor
  · intro hdescribed
    obtain ⟨row', hrow', hchecksum', hsize'⟩ := hdescribed data hdata
    obtain rfl : row = row' := Option.some.inj (hlookup.symm.trans hrow')
    rw [hchecksum, Option.some.injEq] at hchecksum'
    rw [hsize, Option.some.injEq] at hsize'
    cases outcome
    exact congrArg₂ StoreOutcome.mk hchecksum'.symm hsize'.symm
  · rintro rfl d hd
    obtain rfl : data = d := Option.some.inj (hdata.symm.trans hd)
    exact ⟨row, hlookup, hchecksum, hsize⟩

/-- Once fetches of a key, run side by side with no error of a store, have all returned,
the recorded checksum and size are those of the stored bytes, and no reader that
re-verifies evicts them, exactly where the fetch that wrote the key last and the fetch that
recorded it last have upstream bytes of the same digest and length. -/
theorem recorded_checksum_describes_the_bytes
    (hdescribed : Described lib w (artifactKeyFor packageId)) (events : List Event)
    (honly : ∀ e ∈ events, OnlyFetches e)
    (hover : ∀ id task, (run lib startsLikeScript (.initial w) events).tasks id = some task →
      task.over = true) :
    (Described lib (run lib startsLikeScript (.initial w) events).world (artifactKeyFor packageId) ∧
        ServedAsIs lib (run lib startsLikeScript (.initial w) events).world packageId) ↔
      (watched lib startsLikeScript (artifactKeyFor packageId) w events).writer.bind
          (Fetch.outcome lib startsLikeScript) =
        (watched lib startsLikeScript (artifactKeyFor packageId) w events).recorder.bind
          (Fetch.outcome lib startsLikeScript) := by
  have hok : WatchOk lib startsLikeScript packageId w
      (watched lib startsLikeScript (artifactKeyFor packageId) w events) := watchOk_run honly
  have hstate := watched_state lib startsLikeScript (artifactKeyFor packageId) w events
  generalize watched lib startsLikeScript (artifactKeyFor packageId) w events = h at hok hstate ⊢
  rw [← hstate] at hover ⊢
  have hserved : Described lib h.state.world (artifactKeyFor packageId) ∧
      ServedAsIs lib h.state.world packageId ↔
      Described lib h.state.world (artifactKeyFor packageId) :=
    ⟨fun both => both.1, fun hd => ⟨hd, hd.servedAsIs⟩⟩
  rw [hserved]
  have hrecorded : h.writer.isSome = true → h.recorder.isSome = true := by
    intro hwriter
    rcases hok.recorded hwriter with hdone | ⟨id, f, outcome, htask, -⟩
    · exact hdone
    · cases hover id _ htask
  obtain ⟨state, writer, recorder⟩ := h
  cases writer with
  | none =>
    cases recorder with
    | some g => cases hok.records rfl
    | none =>
      refine iff_of_true ?_ rfl
      intro data hdata
      obtain ⟨row, hrow, hrest⟩ := hdescribed data (hok.bytes.symm.trans hdata)
      exact ⟨row, hok.row.trans hrow, hrest⟩
  | some f =>
    cases recorder with
    | none => cases hrecorded rfl
    | some g => exact described_iff hok.bytes hok.row

/-- A fetch of one text, with no checksum advertised. -/
def plainFetch (data : Bytes) : Fetch where
  packageId := .new "npm" "left-pad" "1.0.0"
  role := .user
  integrity := ⟨true, true, false, [], true⟩
  checksum := none
  limit := 10
  rawDeny := none
  noStore := false
  upstream := .ok [.ok data]

/-- Both fetches have stored before the first one records, and it records last. -/
def crossedEvents : List Event :=
  [.start 0 (.fetch (plainFetch [97])), .start 1 (.fetch (plainFetch [98])), .advance 0 none,
    .advance 1 none, .advance 0 none, .advance 1 none, .advance 1 none, .advance 0 none,
    .advance 0 none, .advance 1 none]

/-- The second fetch starts when the first has returned. -/
def serialEvents : List Event :=
  [.start 0 (.fetch (plainFetch [97])), .advance 0 none, .advance 0 none, .advance 0 none,
    .advance 0 none, .start 1 (.fetch (plainFetch [98])), .advance 1 none, .advance 1 none,
    .advance 1 none, .advance 1 none]

theorem over_of_check {events : List Event} {n : ℕ}
    (hstart : ∀ id request, Event.start id request ∈ events → id < n)
    (hcheck : ∀ id, id < n →
      ((run lib startsLikeScript (.initial w) events).tasks id).all Task.over = true) :
    ∀ id task, (run lib startsLikeScript (.initial w) events).tasks id = some task →
      task.over = true := by
  intro id task htask
  by_cases hid : id < n
  · have hall := hcheck id hid
    rw [htask] at hall
    exact hall
  · have hnone : (run lib startsLikeScript (.initial w) events).tasks id = none :=
      tasks_run_eq_none lib startsLikeScript rfl fun request hmem => hid (hstart id request hmem)
    rw [hnone] at htask
    cases htask

theorem serial_fetches_stay_described :
    Described sampleHashes (run sampleHashes (fun _ => false) (.initial emptyWorld)
        serialEvents).world (artifactKeyFor (plainFetch []).packageId) ∧
      ServedAsIs sampleHashes (run sampleHashes (fun _ => false) (.initial emptyWorld)
        serialEvents).world (plainFetch []).packageId := by
  have honly : ∀ e ∈ serialEvents, OnlyFetches e := by
    simp [serialEvents, OnlyFetches]
  have hstart : ∀ id request, Event.start id request ∈ serialEvents → id < 2 := by
    intro id request hmem
    simp only [serialEvents, List.mem_cons, Event.start.injEq, reduceCtorEq, false_or,
      List.not_mem_nil, or_false] at hmem
    omega
  have hover : ∀ id task, (run sampleHashes (fun _ => false) (.initial emptyWorld)
      serialEvents).tasks id = some task → task.over = true :=
    over_of_check hstart (by decide +kernel)
  refine (recorded_checksum_describes_the_bytes ?_ serialEvents honly hover).mpr (by decide +kernel)
  intro data hdata
  cases hdata

/-- The row is about the bytes of the first fetch, the bytes are those of the second, and a
reader that re-verifies evicts them. -/
theorem crossed_fetches_leave_a_foreign_checksum :
    (∀ e ∈ crossedEvents, OnlyFetches e) ∧
      (∀ id task, (run sampleHashes (fun _ => false) (.initial emptyWorld) crossedEvents).tasks id =
        some task → task.over = true) ∧
      ¬Described sampleHashes (run sampleHashes (fun _ => false) (.initial emptyWorld)
        crossedEvents).world (artifactKeyFor (plainFetch []).packageId) ∧
      ¬ServedAsIs sampleHashes (run sampleHashes (fun _ => false) (.initial emptyWorld)
        crossedEvents).world (plainFetch []).packageId := by
  have hbytes : (run sampleHashes (fun _ => false) (.initial emptyWorld)
      crossedEvents).world.objects.lookup (artifactKeyFor (plainFetch []).packageId) = some [98] := by
    decide +kernel
  have hchecksum : (run sampleHashes (fun _ => false) (.initial emptyWorld)
      crossedEvents).world.getArtifactChecksum (artifactKeyFor (plainFetch []).packageId) =
      some (sha256Hex sampleHashes [97]) := by
    decide +kernel
  have hstart : ∀ id request, Event.start id request ∈ crossedEvents → id < 2 := by
    intro id request hmem
    simp only [crossedEvents, List.mem_cons, Event.start.injEq, reduceCtorEq,
      List.not_mem_nil, or_false] at hmem
    omega
  refine ⟨by simp [crossedEvents, OnlyFetches], over_of_check hstart (by decide +kernel), ?_, ?_⟩
  · intro hdescribed
    obtain ⟨row, hrow, hsum, -⟩ := hdescribed [98] hbytes
    rw [World.getArtifactChecksum, hrow, Option.bind_some, hsum] at hchecksum
    revert hchecksum
    decide +kernel
  · intro hserved
    have hverify : verify sampleHashes (sha256Hex sampleHashes [97]) [98] =
        .mismatch .sha256 (sha256Hex sampleHashes [97]) (sha256Hex sampleHashes [98]) := by
      rw [verify, parseExpected_sha256Hex]
      exact if_neg (by decide +kernel)
    apply hserved ⟨(plainFetch []).packageId, (plainFetch []).integrity⟩ rfl [98] hbytes
    rw [hchecksum]
    simp only [reverifyOnServe, hverify]
    rfl

end Finished

end BatleHub.ProxyCache
