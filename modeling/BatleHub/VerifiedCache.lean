import BatleHub.CacheTraffic
import BatleHub.Lib.Joins
import Mathlib.Data.List.Induction

/-!
What a reader of an artifact key can come by while fetches that verify and block run side
by side. Their bytes are written under staging keys of their own, which nobody else
writes, and come to the artifact key by a promotion, which only a verified fetch reaches.
-/
namespace BatleHub.ProxyCache

open Lib AssocMap Integrity

section Keys

theorem stagingKeyFor_ne_artifactKeyFor (id : ℕ) (key : String) (packageId : PackageId) :
    stagingKeyFor id key ≠ artifactKeyFor packageId := by
  intro heq
  have hhead := congrArg (fun s => s.toList.head?) heq
  simp [stagingKeyFor, artifactKeyFor] at hhead

theorem stagingKeyFor_inj {id id' : ℕ} {key key' : String}
    (h : stagingKeyFor id key = stagingKeyFor id' key') : id = id' := by
  have hslash (n : ℕ) : '/' ∉ (toString n).toList := by
    intro hmem
    have hdigit := Joins.isDigit_of_mem_toString hmem
    simp at hdigit
  have hchars := congrArg String.toList h
  simp only [stagingKeyFor, String.toList_append, List.append_assoc,
    List.append_cancel_left_eq] at hchars
  have hfields := (Joins.field_inj (hslash id) (hslash id') hchars).1
  exact Joins.toString_injective (String.toList_inj.mp hfields)

end Keys

section Steps
variable (lib : Hashes) (startsLikeScript : Bytes → Bool) (w : World) (id : ℕ)
  (io : Option CoreError) (task : Task)

/-- A key keeps its bytes in a step, loses them, or is written by a fetch that stores or
promotes there. -/
theorem lookup_advance (key : String) :
    (advance lib startsLikeScript w id io task).1.objects.lookup key = w.objects.lookup key ∨
      (advance lib startsLikeScript w id io task).1.objects.lookup key = none ∨
      (∃ f stream, task = .fetch f (.storing stream) ∧ key = storeKey lib id f) ∨
      ∃ f outcome data, task = .fetch f (.promoting outcome) ∧ key = f.artifactKey ∧
        w.objects.lookup (stagingKeyFor id f.artifactKey) = some data ∧
        (advance lib startsLikeScript w id io task).1.objects.lookup key = some data := by
  have hdelete : ∀ (w' : World) (k : String), (w'.delete k).objects.lookup key =
      w'.objects.lookup key ∨ (w'.delete k).objects.lookup key = none := by
    intro w' k
    by_cases hk : key = k
    · right
      simp [World.delete, hk]
    · left
      simp [World.delete, hk]
  have hloses : ∀ (w' : World) (k : String), (w' = w ∨ w' = w.delete k ∨ w' = w.forget k) →
      w'.objects.lookup key = w.objects.lookup key ∨ w'.objects.lookup key = none := by
    rintro w' k (rfl | rfl | rfl)
    · exact .inl rfl
    · exact hdelete w k
    · exact .inl rfl
  cases task with
  | fetch f phase =>
    obtain ⟨w', phase', hadvance, hspec⟩ := advance_fetch lib startsLikeScript w id io f phase
    rw [hadvance]
    have hwrite : ∀ k data, key = k ∨ (w.write k data).objects.lookup key = w.objects.lookup key := by
      intro k data
      by_cases hk : key = k
      · exact .inl hk
      · right
        simp [World.write, hk]
    cases hspec with
    | condemned stream data _ hstage =>
      rcases hwrite (stagingKeyFor id f.artifactKey) data with hkey | hkept
      · have hstore : storeKey lib id f = stagingKeyFor id f.artifactKey := if_pos hstage
        exact .inr (.inr (.inl ⟨f, stream, rfl, hkey.trans hstore.symm⟩))
      · exact .inl hkept
    | staged stream data _ hstage _ =>
      rcases hwrite (stagingKeyFor id f.artifactKey) data with hkey | hkept
      · have hstore : storeKey lib id f = stagingKeyFor id f.artifactKey := if_pos hstage
        exact .inr (.inr (.inl ⟨f, stream, rfl, hkey.trans hstore.symm⟩))
      · exact .inl hkept
    | stored stream data _ hstage =>
      rcases hwrite f.artifactKey data with hkey | hkept
      · have hstore : storeKey lib id f = f.artifactKey := if_neg (by simp [hstage])
        exact .inr (.inr (.inl ⟨f, stream, rfl, hkey.trans hstore.symm⟩))
      · exact .inl hkept
    | promoted outcome data hstaged =>
      rcases hdelete (w.write f.artifactKey data) (stagingKeyFor id f.artifactKey) with hkept | hnone
      · rw [hkept]
        rcases hwrite f.artifactKey data with hkey | hsame
        · refine .inr (.inr (.inr ⟨f, outcome, data, rfl, hkey, hstaged, ?_⟩))
          simp [World.write, hkey]
        · exact .inl hsame
      · exact .inr (.inl hnone)
    | discarded e =>
      rcases hdelete w (storeKey lib id f) with hkept | hnone
      · exact .inl hkept
      · exact .inr (.inl hnone)
    | evicted reason =>
      rcases hdelete w (storeKey lib id f) with hkept | hnone
      · exact .inl hkept
      · exact .inr (.inl hnone)
    | _ => exact .inl rfl
  | serve r phase =>
    rcases hloses _ _ (advanceServe_world lib w r io phase) with hsame | hnone
    · exact .inl hsame
    · exact .inr (.inl hnone)
  | evict k phase =>
    rcases hloses _ _ (advanceEvict_world w k io phase) with hsame | hnone
    · exact .inl hsame
    · exact .inr (.inl hnone)
  | sweep c phase =>
    obtain ⟨w', phase', hadvance, hspec⟩ := advance_sweep lib startsLikeScript w id io c phase
    rw [hadvance]
    cases hspec with
    | deleted k todo metaKeys stillOrphaned deleted hlive =>
      rcases hdelete w k with hkept | hnone
      · exact .inl hkept
      · exact .inr (.inl hnone)
    | _ => exact .inl rfl

/-- No other task writes a staging key. -/
theorem lookup_staging_of_other {id id' : ℕ} (hne : id' ≠ id) (key : String) :
    (advance lib startsLikeScript w id io task).1.objects.lookup (stagingKeyFor id' key) =
        w.objects.lookup (stagingKeyFor id' key) ∨
      (advance lib startsLikeScript w id io task).1.objects.lookup (stagingKeyFor id' key) = none := by
  rcases lookup_advance lib startsLikeScript w id io task (stagingKeyFor id' key) with hsame | hnone | ⟨f, stream, -, hkey⟩ |
      ⟨f, outcome, data, -, hkey, -⟩
  · exact .inl hsame
  · exact .inr hnone
  · unfold storeKey at hkey
    split at hkey
    · exact absurd (stagingKeyFor_inj hkey) hne
    · exact absurd hkey (stagingKeyFor_ne_artifactKeyFor _ _ _)
  · exact absurd hkey (stagingKeyFor_ne_artifactKeyFor _ _ _)

end Steps

section Staging
variable (lib : Hashes) (startsLikeScript : Bytes → Bool) (packageId : PackageId)

/-- The policy verifies and blocks, and the advertised checksum is one it can verify. -/
structure Blocking (f : Fetch) : Prop where
  enabled : f.integrity.enabled = true
  blocks : f.integrity.blockOnMismatch = true
  accepted : ∃ expected v, f.checksum = some expected ∧ StreamingVerifier.new lib expected = some v

/-- What stands under the staging key of a fetch. -/
def StagedOk (w : World) (id : ℕ) (f : Fetch) : FetchPhase → Prop
  | .fetching | .storing _ | .discarding _ =>
    w.objects.lookup (stagingKeyFor id f.artifactKey) = none
  | .promoting _ =>
    ∀ data, w.objects.lookup (stagingKeyFor id f.artifactKey) = some data →
      ∃ expected, f.checksum = some expected ∧ Matches lib expected data
  | _ => True

structure Inv (s : State) : Prop where
  fresh : ∀ id, s.tasks id = none →
    ∀ key, s.world.objects.lookup (stagingKeyFor id key) = none
  staged : ∀ id f phase, s.tasks id = some (.fetch f phase) →
    f.artifactKey = artifactKeyFor packageId → mustStage lib f = true ∧ StagedOk lib s.world id f phase

/-- Every fetch of the key that starts verifies and blocks. -/
def StartsBlocking : Event → Prop
  | .start _ (.fetch f) => f.artifactKey = artifactKeyFor packageId → Blocking lib f
  | _ => True

variable {lib startsLikeScript packageId}

theorem Blocking.mustStage {f : Fetch} (h : Blocking lib f) : mustStage lib f = true := by
  obtain ⟨expected, v, hchecksum, hverifier⟩ := h.accepted
  simp [ProxyCache.mustStage, buildArtifactVerifier, h.enabled, h.blocks, hchecksum, hverifier]

theorem StagedOk.of_lost {w w' : World} {id : ℕ} {f : Fetch} {phase : FetchPhase}
    (h : StagedOk lib w id f phase)
    (hlost : w'.objects.lookup (stagingKeyFor id f.artifactKey) =
        w.objects.lookup (stagingKeyFor id f.artifactKey) ∨
      w'.objects.lookup (stagingKeyFor id f.artifactKey) = none) :
    StagedOk lib w' id f phase := by
  rcases hlost with hsame | hnone
  · cases phase <;> simp only [StagedOk, hsame] at h ⊢ <;> exact h
  · cases phase <;> simp [StagedOk, hnone]

/-- A fetch that stages keeps its staging key in order, whatever it does. -/
theorem StagedOk.of_step {w w' : World} {id : ℕ} {f : Fetch} {io : Option CoreError}
    {phase phase' : FetchPhase} (hstage : ProxyCache.mustStage lib f = true)
    (hstep : FetchStep lib startsLikeScript w id f io phase w' phase')
    (h : StagedOk lib w id f phase) : StagedOk lib w' id f phase' := by
  cases hstep with
  | opened stream hopen => exact h
  | staged stream data hcontent _ hreason =>
    intro d hd
    obtain rfl : data = d := by simpa [World.write] using hd
    exact matches_of_mustStage hstage hreason
  | broken stream e _ => exact h
  | _ => trivial

theorem inv_step {s : State} {e : Event} (h : Inv lib packageId s)
    (hstart : StartsBlocking lib packageId e) : Inv lib packageId (step lib startsLikeScript s e) := by
  rcases step_cases lib startsLikeScript s e with hsame | ⟨id, request, rfl, hfree, hstep⟩ |
      ⟨id, io, task, rfl, htask, hstep⟩
  · rw [hsame]
    exact h
  · rw [hstep]
    constructor
    · intro id' hnone key
      by_cases hid : id' = id
      · simp [hid] at hnone
      · exact h.fresh id' (by simpa [hid] using hnone) key
    · intro id' f phase hfetch hkey
      by_cases hid : id' = id
      · subst hid
        cases request with
        | fetch f' =>
          obtain ⟨rfl, rfl⟩ : f' = f ∧ FetchPhase.fetching = phase := by
            simpa [Request.task] using hfetch
          exact ⟨(hstart hkey).mustStage, h.fresh id' hfree _⟩
        | _ => simp [Request.task] at hfetch
      · exact h.staged id' f phase (by simpa [hid] using hfetch) hkey
  · rw [hstep]
    constructor
    · intro id' hnone key
      by_cases hid : id' = id
      · simp [hid] at hnone
      · have hold := h.fresh id' (by simpa [hid] using hnone) key
        rcases lookup_staging_of_other lib startsLikeScript _ _ _ hid key with hsame | hlost
        · exact hsame.trans hold
        · exact hlost
    · intro id' f phase hfetch hkey
      by_cases hid : id' = id
      · subst hid
        cases task with
        | fetch f' phase₀ =>
          obtain ⟨w', phase', hadvance, hspec⟩ :=
            advance_fetch lib startsLikeScript s.world id' io f' phase₀
          rw [hadvance] at hfetch ⊢
          obtain ⟨rfl, rfl⟩ : f' = f ∧ phase' = phase := by simpa using hfetch
          obtain ⟨hstage, hok⟩ := h.staged id' f' phase₀ htask hkey
          exact ⟨hstage, hok.of_step hstage hspec⟩
        | _ => simp [advance] at hfetch
      · obtain ⟨hstage, hok⟩ := h.staged id' f phase (by simpa [hid] using hfetch) hkey
        exact ⟨hstage, hok.of_lost (lookup_staging_of_other lib startsLikeScript _ _ _ hid _)⟩

/-- A value that a step puts at the key is one that a verified fetch promotes. -/
theorem promoted_of_step {s : State} {e : Event} (h : Inv lib packageId s) {data : Bytes}
    (hdata : (step lib startsLikeScript s e).world.objects.lookup (artifactKeyFor packageId) =
      some data) :
    s.world.objects.lookup (artifactKeyFor packageId) = some data ∨
      ∃ id io f outcome expected, e = .advance id io ∧
        s.tasks id = some (.fetch f (.promoting outcome)) ∧
        f.artifactKey = artifactKeyFor packageId ∧
        s.world.objects.lookup (stagingKeyFor id f.artifactKey) = some data ∧
        f.checksum = some expected ∧ Matches lib expected data := by
  rcases step_cases lib startsLikeScript s e with hsame | ⟨id, request, rfl, hfree, hstep⟩ |
      ⟨id, io, task, rfl, htask, hstep⟩
  · rw [hsame] at hdata
    exact .inl hdata
  · rw [hstep] at hdata
    exact .inl hdata
  · rw [hstep] at hdata
    rcases lookup_advance lib startsLikeScript s.world id io task (artifactKeyFor packageId) with
        hsame | hnone | ⟨f, stream, rfl, hkey⟩ | ⟨f, outcome, d, rfl, hkey, hstaged, hd⟩
    · exact .inl (hsame.symm.trans hdata)
    · rw [hnone] at hdata
      cases hdata
    · -- a fetch of this key stages, and one of another key stores elsewhere
      unfold storeKey at hkey
      split at hkey
      · exact absurd hkey.symm (stagingKeyFor_ne_artifactKeyFor _ _ _)
      · rename_i hplain
        exact absurd (h.staged id f _ htask hkey.symm).1 hplain
    · rw [hd, Option.some.injEq] at hdata
      subst hdata
      obtain ⟨expected, hchecksum, hmatches⟩ := (h.staged id f _ htask hkey.symm).2 d hstaged
      exact .inr ⟨id, io, f, outcome, expected, rfl, htask, hkey.symm, hstaged, hchecksum, hmatches⟩

/-- A fetch that comes to fail in a step leaves nothing under its staging key, unless it is
the deletion there that fails. -/
theorem cleared_of_step {w w' : World} {id : ℕ} {f : Fetch} {io : Option CoreError}
    {phase : FetchPhase} {e : CoreError} (hstage : ProxyCache.mustStage lib f = true)
    (hstep : FetchStep lib startsLikeScript w id f io phase w' (.failed e))
    (h : StagedOk lib w id f phase) :
    w'.objects.lookup (stagingKeyFor id f.artifactKey) = none ∨
      (phase = .failed e ∧ w' = w) ∨ ∃ reason, phase = .evicting reason ∧ io ≠ none := by
  have hstore : storeKey lib id f = stagingKeyFor id f.artifactKey := if_pos hstage
  cases hstep with
  | refused e => exact .inl h
  | lost stream e hplain => rw [hstage] at hplain; cases hplain
  | discarded e => exact .inl (by simp [World.delete, hstore])
  | evicted reason => exact .inl (by simp [World.delete, hstore])
  | undiscarded e _ => exact .inl h
  | unevicted reason hio => exact .inr (.inr ⟨reason, rfl, hio⟩)
  | returned e => exact .inr (.inl ⟨rfl, rfl⟩)

end Staging

section Failing
variable {lib : Hashes} {startsLikeScript : Bytes → Bool} {s : State} {id : ℕ}

/-- The bytes have been let through. -/
def FetchPhase.Accepted : FetchPhase → Prop
  | .promoting _ | .recording _ => True
  | _ => False

/-- The fetch has promoted, or never will. -/
def FetchPhase.Beyond : FetchPhase → Prop
  | .recording _ | .retrieving | .finished _ => True
  | _ => False

/-- What a task is for does not change, and a fetch does not fail once it is beyond its
promotion. -/
def Task.Later : Task → Task → Prop
  | .fetch f phase, .fetch f' phase' => f' = f ∧ (phase.Beyond → phase'.Beyond)
  | .serve _ _, .serve _ _ => True
  | .evict _ _, .evict _ _ => True
  | .sweep _ _, .sweep _ _ => True
  | _, _ => False

theorem Task.Later.refl (task : Task) : task.Later task := by
  cases task with
  | fetch f phase => exact ⟨rfl, fun h => h⟩
  | _ => trivial

theorem Task.Later.trans {t t' t'' : Task} (h : t.Later t') (h' : t'.Later t'') : t.Later t'' := by
  cases t <;> cases t' <;> cases t'' <;> simp_all [Task.Later]

theorem later_advance (w : World) (id : ℕ) (io : Option CoreError) (task : Task) :
    task.Later (advance lib startsLikeScript w id io task).2 := by
  cases task with
  | fetch f phase =>
    obtain ⟨w', phase', hadvance, hspec⟩ := advance_fetch lib startsLikeScript w id io f phase
    rw [hadvance]
    refine ⟨rfl, ?_⟩
    cases hspec <;> simp [FetchPhase.Beyond]
  | _ => trivial

theorem later_step {task : Task} (h : s.tasks id = some task) (e : Event) :
    ∃ task', (step lib startsLikeScript s e).tasks id = some task' ∧ task.Later task' := by
  rcases step_cases lib startsLikeScript s e with hsame | ⟨id', request, rfl, hfree, hstep⟩ |
      ⟨id', io, task', rfl, htask, hstep⟩
  · rw [hsame]
    exact ⟨task, h, .refl task⟩
  · have hne : id ≠ id' := by
      rintro rfl
      rw [hfree] at h
      cases h
    rw [hstep]
    exact ⟨task, by simpa [hne] using h, .refl task⟩
  · rw [hstep]
    by_cases hid : id = id'
    · subst hid
      obtain rfl : task = task' := Option.some.inj (h.symm.trans htask)
      exact ⟨_, Function.update_self _ _ _, later_advance _ _ _ _⟩
    · exact ⟨task, by simpa [hid] using h, .refl task⟩

theorem later_run {task : Task} (h : s.tasks id = some task) (events : List Event) :
    ∃ task', (run lib startsLikeScript s events).tasks id = some task' ∧ task.Later task' := by
  induction events generalizing s task with
  | nil => exact ⟨task, h, .refl task⟩
  | cons e rest ih =>
    obtain ⟨task', htask', hlater⟩ := later_step h e
    obtain ⟨task'', htask'', hlater'⟩ := ih htask'
    exact ⟨task'', htask'', hlater.trans hlater'⟩

/-- Until it is beyond its promotion, a fetch that stages leaves the artifact key alone. -/
theorem lookup_artifactKey_of_step {w w' : World} {f : Fetch} {io : Option CoreError}
    {phase phase' : FetchPhase} (hstage : mustStage lib f = true)
    (hstep : FetchStep lib startsLikeScript w id f io phase w' phase') (hfirst : ¬phase'.Beyond) :
    w'.objects.lookup f.artifactKey = w.objects.lookup f.artifactKey := by
  have hne : f.artifactKey ≠ stagingKeyFor id f.artifactKey :=
    (stagingKeyFor_ne_artifactKeyFor _ _ _).symm
  have hstore : storeKey lib id f = stagingKeyFor id f.artifactKey := if_pos hstage
  cases hstep with
  | condemned stream data reason _ => simp [World.write, hne]
  | staged stream data _ _ _ => simp [World.write, hne]
  | stored stream data _ hplain => exact absurd trivial hfirst
  | discarded e => simp [World.delete, hstore, hne]
  | evicted reason => simp [World.delete, hstore, hne]
  | promoted outcome data _ => exact absurd trivial hfirst
  | recorded outcome => exact absurd trivial hfirst
  | _ => rfl

end Failing

section Readable
variable (lib : Hashes) (startsLikeScript : Bytes → Bool) (w : World) (packageId : PackageId)

/-- At some point of the run, a fetch of the key promotes the bytes, which hash to the
checksum advertised to it. -/
def Promotes (events : List Event) (data : Bytes) : Prop :=
  ∃ before id io after f outcome expected, events = before ++ .advance id io :: after ∧
    (run lib startsLikeScript (.initial w) before).tasks id =
      some (.fetch f (.promoting outcome)) ∧
    f.artifactKey = artifactKeyFor packageId ∧
    (run lib startsLikeScript (.initial w) before).world.objects.lookup
      (stagingKeyFor id f.artifactKey) = some data ∧
    f.checksum = some expected ∧ Matches lib expected data

variable {lib startsLikeScript w packageId}

theorem inv_run (hstaging : ∀ id key, w.objects.lookup (stagingKeyFor id key) = none)
    {events : List Event} (hstart : ∀ e ∈ events, StartsBlocking lib packageId e) :
    Inv lib packageId (run lib startsLikeScript (.initial w) events) := by
  have hinitial : Inv lib packageId (.initial w) :=
    ⟨fun id _ key => hstaging id key, fun id f phase htask => by cases htask⟩
  exact Runs.run_keeps_of_forall (StartsBlocking lib packageId) _ (fun _ _ h he => inv_step h he)
    _ events hinitial hstart

theorem Promotes.append {events : List Event} {data : Bytes}
    (h : Promotes lib startsLikeScript w packageId events data) (more : List Event) :
    Promotes lib startsLikeScript w packageId (events ++ more) data := by
  obtain ⟨before, id, io, after, f, outcome, expected, rfl, hrest⟩ := h
  exact ⟨before, id, io, after ++ more, f, outcome, expected, by simp, hrest⟩

/-- What is at the key was there before, or was promoted by a fetch it was verified for. -/
theorem readable_run (hstaging : ∀ id key, w.objects.lookup (stagingKeyFor id key) = none)
    {events : List Event} (hstart : ∀ e ∈ events, StartsBlocking lib packageId e) {data : Bytes}
    (hdata : (run lib startsLikeScript (.initial w) events).world.objects.lookup
      (artifactKeyFor packageId) = some data) :
    w.objects.lookup (artifactKeyFor packageId) = some data ∨
      Promotes lib startsLikeScript w packageId events data := by
  -- from the last event back to the one that put the value there
  induction events using List.reverseRecOn with
  | nil => exact .inl hdata
  | append_singleton events e ih =>
    have hearlier : ∀ e ∈ events, StartsBlocking lib packageId e :=
      fun e' he' => hstart e' (List.mem_append_left [e] he')
    have hinv : Inv lib packageId (run lib startsLikeScript (.initial w) events) :=
      inv_run hstaging hearlier
    rw [run_append] at hdata
    rcases promoted_of_step hinv hdata with hold | ⟨id, io, f, outcome, expected, rfl, hnow⟩
    · rcases ih hearlier hold with hbefore | hpromoted
      · exact .inl hbefore
      · exact .inr (hpromoted.append [e])
    · exact .inr ⟨events, id, io, [], f, outcome, expected, rfl, hnow⟩

/-- At some point of the run, the store fails the fetch the deletion of what it has staged
and refused. -/
def CleanupFails (lib : Hashes) (startsLikeScript : Bytes → Bool) (w : World)
    (events : List Event) (id : ℕ) (f : Fetch) : Prop :=
  ∃ before io after reason, events = before ++ .advance id (some io) :: after ∧
    (run lib startsLikeScript (.initial w) before).tasks id = some (.fetch f (.evicting reason))

theorem CleanupFails.append {events : List Event} {id : ℕ} {f : Fetch}
    (h : CleanupFails lib startsLikeScript w events id f) (more : List Event) :
    CleanupFails lib startsLikeScript w (events ++ more) id f := by
  obtain ⟨before, io, after, reason, rfl, hat⟩ := h
  exact ⟨before, io, after ++ more, reason, by simp, hat⟩

/-- A fetch that is failed behind a step was so before it, and what lies under its staging key
stays or goes; or it fails in this step, with nothing there or with a failed delete. -/
theorem failed_of_step {s : State} (hinv : Inv lib packageId s) {event : Event} {id : ℕ}
    {f : Fetch} {e : CoreError} (hkey : f.artifactKey = artifactKeyFor packageId)
    (hfailed : (step lib startsLikeScript s event).tasks id = some (.fetch f (.failed e))) :
    (s.tasks id = some (.fetch f (.failed e)) ∧
        (step lib startsLikeScript s event).world.objects.lookup (stagingKeyFor id f.artifactKey) =
          s.world.objects.lookup (stagingKeyFor id f.artifactKey)) ∨
      (step lib startsLikeScript s event).world.objects.lookup
          (stagingKeyFor id f.artifactKey) = none ∨
      ∃ error reason, event = .advance id (some error) ∧
        s.tasks id = some (.fetch f (.evicting reason)) := by
  rcases step_cases lib startsLikeScript s event with
    hsame | ⟨id', request, rfl, hfree, hstep⟩ | ⟨id', io, task, rfl, htask, hstep⟩
  · rw [hsame] at hfailed ⊢
    exact .inl ⟨hfailed, rfl⟩
  · rw [hstep] at hfailed ⊢
    by_cases hid : id = id'
    · subst hid
      cases request <;> simp [Request.task] at hfailed
    · exact .inl ⟨by simpa [hid] using hfailed, rfl⟩
  · rw [hstep] at hfailed ⊢
    by_cases hid : id = id'
    · subst hid
      cases task with
      | fetch f' phase =>
        obtain ⟨w', phase', hadvance, hspec⟩ :=
          advance_fetch lib startsLikeScript s.world id io f' phase
        rw [hadvance] at hfailed ⊢
        obtain ⟨rfl, rfl⟩ : f' = f ∧ phase' = .failed e := by simpa using hfailed
        obtain ⟨hstage, hok⟩ := hinv.staged id f' phase htask hkey
        rcases cleared_of_step hstage hspec hok with hclear | ⟨rfl, rfl⟩ | ⟨reason, rfl, hio⟩
        · exact .inr (.inl hclear)
        · exact .inl ⟨htask, rfl⟩
        · obtain ⟨error, rfl⟩ := Option.ne_none_iff_exists'.mp hio
          exact .inr (.inr ⟨error, reason, rfl, htask⟩)
      | _ => simp [advance] at hfailed
    · have hbefore : s.tasks id = some (.fetch f (.failed e)) := by simpa [hid] using hfailed
      rcases lookup_staging_of_other lib startsLikeScript s.world io task hid f.artifactKey with
        hsame | hnone
      · exact .inl ⟨hbefore, hsame⟩
      · exact .inr (.inl hnone)

/-- A fetch that has failed has nothing under its staging key, as long as the store let it
clean up. -/
theorem cleared_of_failed (hstaging : ∀ id key, w.objects.lookup (stagingKeyFor id key) = none)
    {events : List Event} (hstart : ∀ e ∈ events, StartsBlocking lib packageId e) {id : ℕ}
    {f : Fetch} {e : CoreError}
    (hfailed : (run lib startsLikeScript (.initial w) events).tasks id =
      some (.fetch f (.failed e)))
    (hkey : f.artifactKey = artifactKeyFor packageId) :
    (run lib startsLikeScript (.initial w) events).world.objects.lookup
        (stagingKeyFor id f.artifactKey) = none ∨
      CleanupFails lib startsLikeScript w events id f := by
  -- back to the step in which it failed; from there on nobody writes the staging key
  induction events using List.reverseRecOn with
  | nil => cases hfailed
  | append_singleton events event ih =>
    have hearlier : ∀ e ∈ events, StartsBlocking lib packageId e :=
      fun e' he' => hstart e' (List.mem_append_left [event] he')
    have hinv : Inv lib packageId (run lib startsLikeScript (.initial w) events) :=
      inv_run hstaging hearlier
    have hlast : run lib startsLikeScript (.initial w) (events ++ [event]) =
        step lib startsLikeScript (run lib startsLikeScript (.initial w) events) event := by
      rw [run_append]
      rfl
    rw [hlast] at hfailed ⊢
    rcases failed_of_step hinv hkey hfailed with
      ⟨hbefore, hsame⟩ | hnone | ⟨error, reason, rfl, hat⟩
    · rcases ih hearlier hbefore with hclear | hfails
      · exact .inl (hsame.trans hclear)
      · exact .inr (hfails.append [event])
    · exact .inl hnone
    · exact .inr ⟨events, error, [], reason, rfl, hat⟩

/-- Nothing a fetch does changes the artifact key, where it fails in the end. -/
theorem unchanged_of_failed (hstaging : ∀ id key, w.objects.lookup (stagingKeyFor id key) = none)
    {before after : List Event} {id : ℕ} {io : Option CoreError}
    (hstart : ∀ e ∈ before ++ .advance id io :: after, StartsBlocking lib packageId e)
    {f : Fetch} {e : CoreError}
    (hfailed : (run lib startsLikeScript (.initial w) (before ++ .advance id io :: after)).tasks id =
      some (.fetch f (.failed e)))
    (hkey : f.artifactKey = artifactKeyFor packageId) :
    (run lib startsLikeScript (.initial w) (before ++ [.advance id io])).world.objects.lookup
        (artifactKeyFor packageId) =
      (run lib startsLikeScript (.initial w) before).world.objects.lookup
        (artifactKeyFor packageId) := by
  have hinv : Inv lib packageId (run lib startsLikeScript (.initial w) before) :=
    inv_run hstaging fun e' he' => hstart e' (List.mem_append_left _ he')
  rw [List.append_cons, run_append] at hfailed
  rw [run_append] at hfailed ⊢
  generalize run lib startsLikeScript (.initial w) before = s at hfailed hinv ⊢
  have hrun : run lib startsLikeScript s [.advance id io] =
      step lib startsLikeScript s (.advance id io) := rfl
  rw [hrun] at hfailed ⊢
  rcases step_cases lib startsLikeScript s (.advance id io) with hsame | ⟨_, _, heq, -, -⟩ |
      ⟨_, _, task, heq, htask, hstep⟩
  · rw [hsame]
  · cases heq
  · cases heq
    have hnext : (step lib startsLikeScript s (.advance id io)).tasks id =
        some (advance lib startsLikeScript s.world id io task).2 := by
      rw [hstep]
      exact Function.update_self _ _ _
    obtain ⟨task', htask', hlater⟩ := later_run hnext after
    obtain rfl : task' = .fetch f (.failed e) := Option.some.inj (htask'.symm.trans hfailed)
    cases task with
    | fetch f' phase =>
      obtain ⟨w', phase', hadvance, hspec⟩ :=
        advance_fetch lib startsLikeScript s.world id io f' phase
      rw [hadvance] at hlater
      obtain ⟨rfl, hbeyond⟩ := hlater
      rw [hstep, hadvance, ← hkey]
      exact lookup_artifactKey_of_step (hinv.staged id f phase htask hkey).1 hspec hbeyond
    | _ => cases hlater

/-- Where the store works, a fetch goes on with what it has stored exactly where the
streaming way lets the bytes through. -/
theorem accepted_iff (w : World) (id : ℕ) (f : Fetch) (stream : ByteStream) :
    (advanceFetch lib startsLikeScript w id f none (.storing stream)).2.Accepted ↔
      Accepts lib f stream := by
  unfold Accepts
  cases hstream : streamUpstream lib f stream with
  | error e =>
    simp only [advanceFetch, hstream]
    cases mustStage lib f <;> simp [FetchPhase.Accepted]
  | ok streamed =>
    obtain ⟨data, slot⟩ := streamed
    simp only [advanceFetch, hstream]
    cases henforced : enforceVerifyOutcome lib f slot with
    | some reason => simp [FetchPhase.Accepted, henforced]
    | none => cases mustStage lib f <;> simp [FetchPhase.Accepted, henforced]

/-- Whatever fetches that verify and block, readers, evictions and sweeps do side by side,
every value at the artifact key was there before or was promoted by a fetch whose
advertised checksum it hashes to; a fetch that fails before it promotes has not changed
the key, and leaves nothing under its staging key unless the store fails it the deletion
there; and a stream is let through exactly where the same bytes would be without a store. -/
theorem unverified_bytes_are_never_readable
    (hstaging : ∀ id key, w.objects.lookup (stagingKeyFor id key) = none) (events : List Event)
    (hstart : ∀ e ∈ events, StartsBlocking lib packageId e) :
    (∀ data, (run lib startsLikeScript (.initial w) events).world.objects.lookup
        (artifactKeyFor packageId) = some data →
      w.objects.lookup (artifactKeyFor packageId) = some data ∨
        Promotes lib startsLikeScript w packageId events data) ∧
    (∀ id f e, (run lib startsLikeScript (.initial w) events).tasks id =
        some (.fetch f (.failed e)) → f.artifactKey = artifactKeyFor packageId →
      ((run lib startsLikeScript (.initial w) events).world.objects.lookup
            (stagingKeyFor id f.artifactKey) = none ∨
          CleanupFails lib startsLikeScript w events id f) ∧
        ∀ before io after, events = before ++ .advance id io :: after →
          (run lib startsLikeScript (.initial w) (before ++ [.advance id io])).world.objects.lookup
              (artifactKeyFor packageId) =
            (run lib startsLikeScript (.initial w) before).world.objects.lookup
              (artifactKeyFor packageId)) ∧
    ∀ s id f stream stream', content stream = content stream' →
      ((advanceFetch lib startsLikeScript s id f none (.storing stream)).2.Accepted ↔
        NoStoreAccepts lib f stream') := by
  refine ⟨fun data hdata => readable_run hstaging hstart hdata, ?_,
    fun s id f stream stream' h => (accepted_iff s id f stream).trans
      (accepts_iff_noStoreAccepts f h)⟩
  intro id f e hfailed hkey
  refine ⟨cleared_of_failed hstaging hstart hfailed hkey, ?_⟩
  rintro before io after rfl
  exact unchanged_of_failed hstaging hstart hfailed hkey

/-- The SHA-256 of the text `a`. -/
def sampleChecksum : String :=
  "ca978112ca1bbdcafac231b39a23dc4da786eff8147c4e72b9807785afee48bb"

/-- The text `a`, verified against its SHA-256. -/
def sampleFetch : Fetch where
  packageId := .new "npm" "left-pad" "1.0.0"
  role := .user
  integrity := ⟨true, true, false, [], false⟩
  checksum := some sampleChecksum
  limit := 10
  rawDeny := none
  noStore := false
  upstream := .ok [.ok [97]]

def emptyWorld : World := ⟨∅, ∅, fun _ => [], fun _ => none⟩

theorem blocking_sampleFetch : Blocking sampleHashes sampleFetch := by
  have haccepted : (StreamingVerifier.new sampleHashes sampleChecksum).isSome = true := by
    decide +kernel
  obtain ⟨v, hv⟩ := Option.isSome_iff_exists.mp haccepted
  exact ⟨rfl, rfl, sampleChecksum, v, rfl, hv⟩

/-- From its start to its promotion. -/
def sampleEvents : List Event :=
  [.start 0 (.fetch sampleFetch), .advance 0 none, .advance 0 none, .advance 0 none]

theorem verified_bytes_become_readable :
    (run sampleHashes (fun _ => false) (.initial emptyWorld) sampleEvents).world.objects.lookup
        (artifactKeyFor sampleFetch.packageId) = some [97] ∧
      Promotes sampleHashes (fun _ => false) emptyWorld sampleFetch.packageId sampleEvents [97] := by
  have hread : (run sampleHashes (fun _ => false) (.initial emptyWorld)
      sampleEvents).world.objects.lookup (artifactKeyFor sampleFetch.packageId) = some [97] := by
    decide +kernel
  refine ⟨hread, ?_⟩
  have hstart : ∀ e ∈ sampleEvents,
      StartsBlocking sampleHashes sampleFetch.packageId e := by
    intro e he
    simp only [sampleEvents, List.mem_cons, List.not_mem_nil, or_false] at he
    rcases he with rfl | rfl | rfl | rfl
    · exact fun _ => blocking_sampleFetch
    · trivial
    · trivial
    · trivial
  rcases (unverified_bytes_are_never_readable (fun _ _ => rfl) sampleEvents hstart).1 [97] hread with
      hbefore | hpromotes
  · cases hbefore
  · exact hpromotes

/-- The text `b`, advertised with the checksum of `a`. -/
def refusedFetch : Fetch := { sampleFetch with upstream := .ok [.ok [98]] }

/-- The bytes are staged and refused, and the store fails the deletion. -/
def refusedEvents : List Event :=
  [.start 0 (.fetch refusedFetch), .advance 0 none, .advance 0 none,
    .advance 0 (some (.registry "disk"))]

def FetchPhase.hasFailed : FetchPhase → Bool
  | .failed _ => true
  | _ => false

/-- The deletion that cleans up is tried once: where it fails, refused bytes stay under the
staging key of a fetch that has returned its error. -/
theorem refused_bytes_stay_staged :
    ¬ ∀ (w : World) (packageId : PackageId) (events : List Event),
      (∀ id key, w.objects.lookup (stagingKeyFor id key) = none) →
      (∀ e ∈ events, StartsBlocking sampleHashes packageId e) →
      ∀ id f e, (run sampleHashes (fun _ => false) (.initial w) events).tasks id =
          some (.fetch f (.failed e)) → f.artifactKey = artifactKeyFor packageId →
        (run sampleHashes (fun _ => false) (.initial w) events).world.objects.lookup
          (stagingKeyFor id f.artifactKey) = none := by
  intro h
  have hblocking : Blocking sampleHashes refusedFetch :=
    ⟨rfl, rfl, blocking_sampleFetch.accepted⟩
  have hstart : ∀ e ∈ refusedEvents,
      StartsBlocking sampleHashes refusedFetch.packageId e := by
    intro e he
    simp only [refusedEvents, List.mem_cons, List.not_mem_nil, or_false] at he
    rcases he with rfl | rfl | rfl | rfl
    · exact fun _ => hblocking
    · trivial
    · trivial
    · trivial
  obtain ⟨hstays, hover⟩ : (run sampleHashes (fun _ => false) (.initial emptyWorld)
        refusedEvents).world.objects.lookup (stagingKeyFor 0 refusedFetch.artifactKey) =
          some [98] ∧
      ((run sampleHashes (fun _ => false) (.initial emptyWorld) refusedEvents).tasks 0).any
        (fun task => match task with
          | .fetch _ phase => phase.hasFailed
          | _ => false) = true := by
    decide +kernel
  have hstarted : (run sampleHashes (fun _ => false) (.initial emptyWorld)
      [.start 0 (.fetch refusedFetch)]).tasks 0 = some (.fetch refusedFetch .fetching) := rfl
  obtain ⟨task, htask, hlater⟩ := later_run hstarted refusedEvents.tail
  have hsplit : [.start 0 (.fetch refusedFetch)] ++ refusedEvents.tail = refusedEvents := rfl
  rw [← run_append, hsplit] at htask
  rw [htask, Option.any_some] at hover
  cases task with
  | fetch f phase =>
    obtain ⟨rfl, -⟩ := hlater
    cases phase with
    | failed e =>
      have hgone := h emptyWorld refusedFetch.packageId refusedEvents (fun _ _ => rfl) hstart 0
        refusedFetch e htask rfl
      rw [hstays] at hgone
      cases hgone
    | _ => simp [FetchPhase.hasFailed] at hover
  | _ => simp at hover

end Readable

end BatleHub.ProxyCache
