import BatleHub.Lib.Fallible
import BatleHub.LocalPackages
import BatleHub.RecordedChecksums
import Mathlib.Logic.Function.Iterate

/-!
Warming (`services/warming/run.rs`) beside a proxied fetch (`services/proxy/cache.rs`). Both
write the same slot of the cache and the same row about it. Warming takes what upstream
answers as it comes, and records it under the name that it was asked to warm.
-/
namespace BatleHub.ProxyCache

open Lib AssocMap Integrity
open LocalPackages (TextEnv)

section Coordinates

/-- How a kind addresses the one artifact of a version. -/
inductive FetchArtifact where
  | fixed (artifact : String)
  | nugetFlat

/-- The coordinate that the artifact is fetched and cached as. -/
def FetchArtifact.coordinate (env : TextEnv) (registry name version : String) :
    FetchArtifact → PackageId
  | .fixed artifact => ⟨registry, name, version, some artifact⟩
  | .nugetFlat =>
    let id := env.toLowercase name
    let version := env.toLowercase version
    ⟨registry, id, version, some (id ++ "." ++ version ++ ".nupkg")⟩

/-- `fetchable_by_version`, for the kinds that it names an artifact for. -/
def warmArtifact : RegistryKind → Option FetchArtifact
  | .npm => some (.fixed "tarball")
  | .galaxy => some (.fixed "tarball")
  | .cargo => some (.fixed "dl")
  | .composer => some (.fixed "dist")
  | .rubygems => some (.fixed "gem")
  | .goproxy => some (.fixed "zip")
  | .nuget => some .nugetFlat
  | .openvsx => some (.fixed "vsix")
  | .vscodeMarketplace => some (.fixed "vsix")
  | .jetbrainsMarketplace => some (.fixed "plugin")
  | .devfile => some (.fixed "layer/devfile.yaml")
  | .helm => some (.fixed "chart")
  | _ => none

structure WarmingService where
  env : TextEnv
  /-- The kind that the client's type is read as, if any. -/
  kind : Option RegistryKind
  registryName : String
  latestN : ℕ
  concurrency : ℕ
  platforms : List String
  /-- The platform that this server runs on, as the kind spells it. -/
  hostPlatform : RegistryKind → String

/-- One file per platform, for the two kinds that address their artifact so. -/
def platformArtifacts (svc : WarmingService) (name version : String) :
    RegistryKind → Option (List String)
  | .sdkman => some (if svc.platforms = [] then [svc.hostPlatform .sdkman] else svc.platforms)
  | .nodedist =>
    let platforms := if svc.platforms = [] then [svc.hostPlatform .nodedist] else svc.platforms
    some (platforms.map fun p =>
      name ++ "-" ++ version ++ "-" ++ p ++ "." ++
        if Texts.startsWith p "win" then "zip" else "tar.xz")
  | _ => none

/-- The name and the pinned version of an entry. The `@` of a scope is no separator. -/
def splitPackageSpec (package : String) : String × Option String :=
  match Texts.stripPrefix package "@" with
  | none =>
    match Texts.splitOnce package '@' with
    | some (name, version) => (name, some version)
    | none => (package, none)
  | some rest =>
    match Texts.splitOnce rest '@' with
    | some (name, version) => ("@" ++ name, some version)
    | none => (package, none)

/-- What one task warms: the coordinate, and the name and version that it was asked for. -/
structure WarmTask where
  pkg : PackageId
  name : String
  version : String
  deriving DecidableEq

def WarmTask.artifactKey (t : WarmTask) : String := artifactKeyFor t.pkg

def versionTasks (svc : WarmingService) (name version : String) : List WarmTask :=
  let bare := PackageId.new svc.registryName name version
  let coordinates :=
    match svc.kind.bind warmArtifact with
    | some a => [a.coordinate svc.env svc.registryName name version]
    | none =>
      match svc.kind.bind (platformArtifacts svc name version) with
      | some files => files.map fun file => { bare with artifact := some file }
      | none => [bare]
  coordinates.map fun pkg => ⟨pkg, name, version⟩

/-- What is asked for: an entry of the package list, or an upstream path. -/
inductive WarmEntry where
  | package (spec : String)
  | path (path : String)

/-- The tasks of an entry. Without a pinned version it is the last of those listed. -/
def tasksOf (svc : WarmingService) (listVersions : String → Except CoreError (List String)) :
    WarmEntry → List WarmTask
  | .package spec =>
    if svc.concurrency = 0 then []
    else
      let (name, pinnedVersion) := splitPackageSpec spec
      let versions :=
        match pinnedVersion with
        | some v => [v]
        | none =>
          match listVersions name with
          | .ok v => v.reverse.take svc.latestN
          | .error _ => []
      versions.flatMap (versionTasks svc name)
  | .path path =>
    if svc.concurrency = 0 then []
    else [⟨⟨svc.registryName, "repo", "_", some path⟩, path, "_"⟩]

theorem registry_of_mem_tasks {svc : WarmingService}
    {listVersions : String → Except CoreError (List String)} {entry : WarmEntry} {t : WarmTask}
    (h : t ∈ tasksOf svc listVersions entry) : t.pkg.registry = svc.registryName := by
  cases entry with
  | path path =>
    unfold tasksOf at h
    dsimp only at h
    split_ifs at h
    · cases h
    · rw [List.mem_singleton.mp h]
  | package spec =>
    unfold tasksOf at h
    dsimp only at h
    split_ifs at h
    · cases h
    · obtain ⟨version, -, ht⟩ := List.mem_flatMap.mp h
      unfold versionTasks at ht
      dsimp only at ht
      obtain ⟨pkg, hpkg, rfl⟩ := List.mem_map.mp ht
      dsimp only
      split at hpkg
      · rename_i a _
        rw [List.mem_singleton.mp hpkg]
        cases a <;> rfl
      · split at hpkg
        · obtain ⟨file, -, rfl⟩ := List.mem_map.mp hpkg
          rfl
        · rw [List.mem_singleton.mp hpkg]
          rfl

/-- A version is recorded under the names of its coordinate where the kind does not lower
them, or they are lowered already. -/
theorem named_of_mem_versionTasks {svc : WarmingService} {name version : String} {t : WarmTask}
    (h : t ∈ versionTasks svc name version) :
    t.name = t.pkg.name ∧ t.version = t.pkg.version ↔
      (svc.kind = some .nuget →
        name = svc.env.toLowercase name ∧ version = svc.env.toLowercase version) := by
  have hplain : ∀ a, svc.kind.bind warmArtifact = some a → (∀ l, a ≠ .fixed l) →
      svc.kind = some .nuget := by
    intro a ha hne
    obtain ⟨kind, hkind, hartifact⟩ := Option.bind_eq_some_iff.mp ha
    rw [hkind]
    cases kind <;> first
      | rfl
      | exact absurd (Option.some.inj hartifact).symm (hne _)
      | cases hartifact
  have hnuget : svc.kind = some .nuget → svc.kind.bind warmArtifact = some .nugetFlat := by
    intro hkind
    rw [hkind]
    rfl
  unfold versionTasks at h
  dsimp only at h
  obtain ⟨pkg, hpkg, rfl⟩ := List.mem_map.mp h
  cases hartifact : svc.kind.bind warmArtifact with
  | some a =>
    rw [hartifact] at hpkg
    rw [List.mem_singleton.mp hpkg]
    cases a with
    | fixed l =>
      refine iff_of_true ⟨rfl, rfl⟩ fun hkind => ?_
      rw [hnuget hkind] at hartifact
      cases hartifact
    | nugetFlat =>
      have hkind := hplain .nugetFlat hartifact nofun
      exact ⟨fun hnamed _ => hnamed, fun hnamed => hnamed hkind⟩
  | none =>
    rw [hartifact] at hpkg
    dsimp only at hpkg
    refine iff_of_true ?_ fun hkind => ?_
    · split at hpkg
      · obtain ⟨file, -, rfl⟩ := List.mem_map.mp hpkg
        exact ⟨rfl, rfl⟩
      · rw [List.mem_singleton.mp hpkg]
        exact ⟨rfl, rfl⟩
    · rw [hnuget hkind] at hartifact
      cases hartifact

/-- An upstream path is recorded as the name of a package. -/
theorem named_path_iff {svc : WarmingService}
    {listVersions : String → Except CoreError (List String)} {path : String} {t : WarmTask}
    (h : t ∈ tasksOf svc listVersions (.path path)) :
    t.name = t.pkg.name ∧ t.version = t.pkg.version ↔ path = "repo" := by
  unfold tasksOf at h
  dsimp only at h
  split_ifs at h
  · cases h
  · rw [List.mem_singleton.mp h]
    exact and_iff_left rfl

end Coordinates

section Warming
variable (lib : Hashes)

inductive WarmReport where
  | warmed
  | skipped
  | failed (e : CoreError)
  deriving DecidableEq

/-- What the coordinator and the stores answer to one task. -/
structure Replies where
  claimed : Bool
  existsCheck : Option CoreError
  store : Option CoreError
  record : Option CoreError

/-- The row that warming records. -/
def WarmTask.row (t : WarmTask) (registry : String) (outcome : StoreOutcome) : MetaRow :=
  ⟨registry, t.name, t.version, some outcome.size, some outcome.contentHash⟩

def World.recordWith (w : World) (io : Option CoreError) (key : String) (row : MetaRow) : World :=
  match io with
  | some _ => w
  | none => w.recordArtifact key row

/-- `warm_one_version`. -/
def warmOneVersion (w : World) (registry : String) (t : WarmTask)
    (upstream : Except CoreError ByteStream) (replies : Replies) : World × WarmReport :=
  if !replies.claimed then (w, .skipped)
  else
    match replies.existsCheck, w.objects.lookup t.artifactKey with
    | some e, _ => (w, .failed e)
    | none, some _ => (w, .skipped)
    | none, none =>
      match upstream with
      | .error e => (w, .failed e)
      | .ok stream =>
        match collectByteStream stream, replies.store with
        | .error e, _ | .ok _, some e => (w, .failed e)
        | .ok data, none =>
          ((w.write t.artifactKey data).recordWith replies.record t.artifactKey
            (t.row registry (storeOutcomeOf lib data)), .warmed)

end Warming

section Fetching
variable (lib : Hashes) (startsLikeScript : Bytes → Bool)

/-- The stores answer a fetch as they answer warming. -/
def fetchIo (replies : Replies) : FetchPhase → Option CoreError
  | .storing _ => replies.store
  | .recording _ => replies.record
  | _ => none

def fetchOnce (id : ℕ) (f : Fetch) (replies : Replies) (s : World × FetchPhase) :
    World × FetchPhase :=
  advanceFetch lib startsLikeScript s.1 id f (fetchIo replies s.2) s.2

/-- A fetch from its start to its end, with nothing beside it. -/
def fetchAndCache (w : World) (id : ℕ) (f : Fetch) (replies : Replies) : World × FetchPhase :=
  (fetchOnce lib startsLikeScript id f replies)^[5] (w, .fetching)

/-- The fetch returned an error. -/
def FetchPhase.refused : FetchPhase → Prop
  | .failed _ => True
  | .finished (.error _) => True
  | _ => False

/-- The policy, the limit and upstream's own wish let the bytes into the cache. -/
structure Takes (f : Fetch) (data : Bytes) : Prop where
  opened : ∃ stream, openUpstream startsLikeScript f = .ok stream
  stored : f.noStore = false
  small : data.length ≤ f.limit
  passed : blockReason lib f data = none

end Fetching

section Opening
variable {startsLikeScript : Bytes → Bool}

theorem refuseRawScript_eq {f : Fetch} {stream stream' : ByteStream}
    (h : refuseRawScript startsLikeScript f stream = .ok stream') : stream' = stream := by
  unfold refuseRawScript at h
  cases hraw : f.rawDeny with
  | none =>
    rw [hraw] at h
    exact (Except.ok.inj h).symm
  | some path =>
    rw [hraw] at h
    dsimp only at h
    unfold peekForScript at h
    split at h
    · split_ifs at h
      exact (Except.ok.inj h).symm
    · cases h
    · exact (Except.ok.inj h).symm

theorem openUpstream_eq {f : Fetch} {stream : ByteStream}
    (h : openUpstream startsLikeScript f = .ok stream) : f.upstream = .ok stream := by
  unfold openUpstream at h
  obtain ⟨up, hup, h⟩ := (Fallible.bind_eq_ok_iff _ _ _).mp h
  obtain ⟨raw, hraw, h⟩ := (Fallible.bind_eq_ok_iff _ _ _).mp h
  obtain ⟨u, -, h⟩ := (Fallible.bind_eq_ok_iff _ _ _).mp h
  rw [hup, ← refuseRawScript_eq hraw]
  exact h

theorem collectByteStream_iff (stream : ByteStream) (data : Bytes) :
    collectByteStream stream = .ok data ↔ content stream = some data := by
  induction stream generalizing data with
  | nil =>
    unfold collectByteStream content chunksOf
    simp
  | cons item rest ih =>
    cases item with
    | error e => simp [collectByteStream, content, chunksOf]
    | ok chunk =>
      rw [content_cons_ok, collectByteStream, map_eq_ok_iff, Option.map_eq_some_iff]
      simp only [ih]

end Opening

section Outcomes
variable {lib : Hashes} {startsLikeScript : Bytes → Bool}

/-- What warming takes: nobody else is at it, the slot is free, and upstream answers with
bytes that the store takes. -/
structure Warms (w : World) (key : String) (upstream : Except CoreError ByteStream)
    (replies : Replies) (data : Bytes) : Prop where
  claimed : replies.claimed = true
  checked : replies.existsCheck = none
  free : w.objects.lookup key = none
  answered : ∃ stream, upstream = .ok stream ∧ content stream = some data
  stored : replies.store = none

variable (lib) in
/-- A task warms, and leaves the bytes and the row, or changes nothing. -/
theorem warmOneVersion_cases (w : World) (registry : String) (t : WarmTask)
    (upstream : Except CoreError ByteStream) (replies : Replies) :
    (∃ data, Warms w t.artifactKey upstream replies data ∧
      warmOneVersion lib w registry t upstream replies =
        ((w.write t.artifactKey data).recordWith replies.record t.artifactKey
          (t.row registry (storeOutcomeOf lib data)), .warmed)) ∨
    (∀ data, ¬ Warms w t.artifactKey upstream replies data) ∧
      (warmOneVersion lib w registry t upstream replies).1 = w ∧
      (warmOneVersion lib w registry t upstream replies).2 ≠ .warmed := by
  unfold warmOneVersion
  cases hclaimed : replies.claimed with
  | false => exact Or.inr ⟨fun data h => (nomatch h.claimed.symm.trans hclaimed), rfl, nofun⟩
  | true =>
    rw [if_neg (by nofun)]
    cases hcheck : replies.existsCheck with
    | some e => exact Or.inr ⟨fun data h => (nomatch h.checked.symm.trans hcheck), rfl, nofun⟩
    | none =>
      cases hfree : w.objects.lookup t.artifactKey with
      | some old => exact Or.inr ⟨fun data h => (nomatch h.free.symm.trans hfree), rfl, nofun⟩
      | none =>
        cases hup : upstream with
        | error e =>
          refine Or.inr ⟨?_, rfl, nofun⟩
          rintro data ⟨-, -, -, ⟨stream, hstream, -⟩, -⟩
          cases hstream
        | ok stream =>
          dsimp only
          cases hcollect : collectByteStream stream with
          | error e =>
            refine Or.inr ⟨?_, rfl, nofun⟩
            rintro data ⟨-, -, -, ⟨stream', hstream, hcontent⟩, -⟩
            rw [← Except.ok.inj hstream, ← collectByteStream_iff, hcollect] at hcontent
            cases hcontent
          | ok data =>
            cases hstore : replies.store with
            | some e => exact Or.inr ⟨fun data h => (nomatch h.stored.symm.trans hstore), rfl, nofun⟩
            | none =>
              exact Or.inl ⟨data, ⟨hclaimed, hcheck, hfree,
                ⟨stream, rfl, (collectByteStream_iff _ _).mp hcollect⟩, hstore⟩, rfl⟩

theorem recordWith_objects (w : World) (io : Option CoreError) (key : String) (row : MetaRow) :
    (w.recordWith io key row).objects = w.objects := by
  cases io <;> rfl

section Steps
variable (id : ℕ) (f : Fetch) (replies : Replies)

theorem fetchAndCache_eq (w : World) :
    fetchAndCache lib startsLikeScript w id f replies =
      (fetchOnce lib startsLikeScript id f replies)^[4]
        (fetchOnce lib startsLikeScript id f replies (w, .fetching)) := rfl

theorem iterate_failed (n : ℕ) (w : World) (e : CoreError) :
    (fetchOnce lib startsLikeScript id f replies)^[n] (w, .failed e) = (w, .failed e) :=
  Function.iterate_fixed rfl n

theorem iterate_finished (n : ℕ) (w : World) (result : Except CoreError Bytes) :
    (fetchOnce lib startsLikeScript id f replies)^[n] (w, .finished result) =
      (w, .finished result) :=
  Function.iterate_fixed rfl n

theorem fetchOnce_opened {w : World} {stream : ByteStream}
    (hopen : openUpstream startsLikeScript f = .ok stream) (hstore : f.noStore = false) :
    fetchOnce lib startsLikeScript id f replies (w, .fetching) = (w, .storing stream) := by
  unfold fetchOnce advanceFetch
  dsimp only
  rw [hopen]
  dsimp only
  rw [hstore]
  rfl

/-- From the promoted or stored bytes on: the row, and the end. -/
theorem iterate_recording {w : World} {data : Bytes}
    (hbytes : w.objects.lookup f.artifactKey = some data) (outcome : StoreOutcome) (n : ℕ) :
    (fetchOnce lib startsLikeScript id f replies)^[n + 2] (w, .recording outcome) =
      (w.recordWith replies.record f.artifactKey (f.row outcome), .finished (.ok data)) := by
  have hrecord : fetchOnce lib startsLikeScript id f replies (w, .recording outcome) =
      (w.recordWith replies.record f.artifactKey (f.row outcome), .retrieving) := by
    unfold fetchOnce advanceFetch fetchIo World.recordWith
    dsimp only
    cases replies.record <;> rfl
  have hretrieve : fetchOnce lib startsLikeScript id f replies
      (w.recordWith replies.record f.artifactKey (f.row outcome), .retrieving) =
        (w.recordWith replies.record f.artifactKey (f.row outcome), .finished (.ok data)) := by
    unfold fetchOnce advanceFetch fetchIo
    dsimp only
    rw [recordWith_objects, hbytes]
  rw [Function.iterate_add_apply]
  show (fetchOnce lib startsLikeScript id f replies)^[n] (fetchOnce lib startsLikeScript id f replies
    (fetchOnce lib startsLikeScript id f replies (w, .recording outcome))) = _
  rw [hrecord, hretrieve, iterate_finished]

end Steps

/-- A fetch that takes the bytes leaves them and its own row. -/
theorem fetchAndCache_of_takes {w : World} (id : ℕ) {f : Fetch} {replies : Replies} {data : Bytes}
    (hwarms : Warms w f.artifactKey f.upstream replies data)
    (htakes : Takes lib startsLikeScript f data) :
    (fetchAndCache lib startsLikeScript w id f replies).1.objects.lookup f.artifactKey = some data ∧
    (fetchAndCache lib startsLikeScript w id f replies).1.rows =
      (w.recordWith replies.record f.artifactKey (f.row (storeOutcomeOf lib data))).rows ∧
    (fetchAndCache lib startsLikeScript w id f replies).2 = .finished (.ok data) := by
  obtain ⟨⟨stream, hopen⟩, hstore, hsmall, hpassed⟩ := htakes
  obtain ⟨up, hup, hcontent⟩ := hwarms.answered
  obtain rfl : up = stream := Except.ok.inj (hup.symm.trans (openUpstream_eq hopen))
  obtain ⟨data', slot, hstream, henforce⟩ :=
    (accepts_iff f up).mpr ⟨data, hcontent, hsmall, hpassed⟩
  obtain rfl : data' = data :=
    Option.some.inj ((streamUpstream_eq_ok hstream).1.symm.trans hcontent)
  have hstoring : fetchOnce lib startsLikeScript id f replies (w, .storing up) =
      (w.write (storeKey lib id f) data', if mustStage lib f then
        .promoting (storeOutcomeOf lib data') else .recording (storeOutcomeOf lib data')) := by
    unfold fetchOnce advanceFetch fetchIo
    dsimp only
    rw [hstream, hwarms.stored]
    dsimp only
    rw [henforce]
  have hrecorded : ∀ w' : World, w'.rows = w.rows →
      (w'.recordWith replies.record f.artifactKey (f.row (storeOutcomeOf lib data'))).rows =
        (w.recordWith replies.record f.artifactKey (f.row (storeOutcomeOf lib data'))).rows := by
    intro w' hrows
    unfold World.recordWith World.recordArtifact
    cases replies.record with
    | some e => exact hrows
    | none =>
      dsimp only
      rw [hrows]
  rw [fetchAndCache_eq, fetchOnce_opened id f replies hopen hstore, Function.iterate_succ_apply,
    hstoring]
  cases hstage : mustStage lib f with
  | false =>
    have hkey : storeKey lib id f = f.artifactKey := if_neg (by rw [hstage]; nofun)
    have hbytes : (w.write f.artifactKey data').objects.lookup f.artifactKey = some data' := by
      unfold World.write
      rw [lookup_insert_eq, if_pos rfl]
    rw [hkey, if_neg (by nofun), iterate_recording id f replies hbytes _ 1]
    refine ⟨?_, hrecorded _ rfl, rfl⟩
    rw [recordWith_objects]
    exact hbytes
  | true =>
    have hkey : storeKey lib id f = stagingKeyFor id f.artifactKey := if_pos hstage
    have hstaged : (w.write (stagingKeyFor id f.artifactKey) data').objects.lookup
        (stagingKeyFor id f.artifactKey) = some data' := by
      unfold World.write
      rw [lookup_insert_eq, if_pos rfl]
    have hpromoting : fetchOnce lib startsLikeScript id f replies
        (w.write (stagingKeyFor id f.artifactKey) data', .promoting (storeOutcomeOf lib data')) =
        ((((w.write (stagingKeyFor id f.artifactKey) data').write f.artifactKey data').delete
          (stagingKeyFor id f.artifactKey)), .recording (storeOutcomeOf lib data')) := by
      unfold fetchOnce advanceFetch fetchIo
      dsimp only
      rw [hstaged]
    have hne : f.artifactKey ≠ stagingKeyFor id f.artifactKey :=
      (stagingKeyFor_ne_artifactKeyFor id _ f.packageId).symm
    have hbytes : (((w.write (stagingKeyFor id f.artifactKey) data').write f.artifactKey data').delete
        (stagingKeyFor id f.artifactKey)).objects.lookup f.artifactKey = some data' := by
      unfold World.write World.delete
      dsimp only
      rw [lookup_erase_eq, if_neg hne, lookup_insert_eq, if_pos rfl]
    rw [hkey, if_pos rfl, Function.iterate_succ_apply, hpromoting,
      iterate_recording id f replies hbytes _ 0]
    refine ⟨?_, hrecorded _ rfl, rfl⟩
    rw [recordWith_objects]
    exact hbytes

/-- A fetch that does not take the bytes leaves the slot free. -/
theorem fetchAndCache_of_not_takes {w : World} (id : ℕ) {f : Fetch} {replies : Replies} {data : Bytes}
    (hwarms : Warms w f.artifactKey f.upstream replies data)
    (htakes : ¬ Takes lib startsLikeScript f data) :
    (fetchAndCache lib startsLikeScript w id f replies).1.objects.lookup f.artifactKey = none := by
  obtain ⟨up, hup, hcontent⟩ := hwarms.answered
  have hdeleted : ∀ w' : World, w'.objects.lookup f.artifactKey = none →
      ∀ key, (w'.delete key).objects.lookup f.artifactKey = none := by
    intro w' hfree key
    unfold World.delete
    rw [lookup_erase_eq, hfree, ite_self]
  rw [fetchAndCache_eq]
  cases hopen : openUpstream startsLikeScript f with
  | error e =>
    have hfetching : fetchOnce lib startsLikeScript id f replies (w, .fetching) = (w, .failed e) := by
      unfold fetchOnce advanceFetch
      dsimp only
      rw [hopen]
    rw [hfetching, iterate_failed]
    exact hwarms.free
  | ok stream =>
    obtain rfl : up = stream := Except.ok.inj (hup.symm.trans (openUpstream_eq hopen))
    cases hstore : f.noStore with
    | true =>
      have hfetching : (∃ e, fetchOnce lib startsLikeScript id f replies (w, .fetching) =
          (w, .failed e)) ∨ ∃ result, fetchOnce lib startsLikeScript id f replies (w, .fetching) =
          (w, .finished result) := by
        unfold fetchOnce advanceFetch
        dsimp only
        rw [hopen]
        dsimp only
        rw [if_pos hstore]
        cases serveNoStore lib f up with
        | error e => exact Or.inl ⟨e, rfl⟩
        | ok served => exact Or.inr ⟨.ok served, rfl⟩
      rcases hfetching with ⟨e, hfetching⟩ | ⟨result, hfetching⟩
      · rw [hfetching, iterate_failed]
        exact hwarms.free
      · rw [hfetching, iterate_finished]
        exact hwarms.free
    | false =>
      rw [fetchOnce_opened id f replies hopen hstore, Function.iterate_succ_apply]
      cases hstream : streamUpstream lib f up with
      | error e =>
        have hstoring : fetchOnce lib startsLikeScript id f replies (w, .storing up) =
            (w, if mustStage lib f then .discarding e else .failed e) := by
          unfold fetchOnce advanceFetch
          dsimp only
          rw [hstream]
        rw [hstoring]
        cases mustStage lib f with
        | false =>
          rw [if_neg (by nofun), iterate_failed]
          exact hwarms.free
        | true =>
          rw [if_pos rfl, Function.iterate_succ_apply]
          show ((fetchOnce lib startsLikeScript id f replies)^[2]
            (w.delete (storeKey lib id f), .failed e)).1.objects.lookup f.artifactKey = none
          rw [iterate_failed]
          exact hdeleted w hwarms.free _
      | ok taken =>
        obtain ⟨data', slot⟩ := taken
        obtain ⟨hcontent', hsmall, henforce⟩ := streamUpstream_eq_ok hstream
        obtain rfl : data' = data := Option.some.inj (hcontent'.symm.trans hcontent)
        cases hreason : blockReason lib f data' with
        | none => exact absurd ⟨⟨up, hopen⟩, hstore, hsmall, hreason⟩ htakes
        | some reason =>
          have hstage := mustStage_of_blockReason hreason
          have hkey : storeKey lib id f = stagingKeyFor id f.artifactKey := if_pos hstage
          have hstoring : fetchOnce lib startsLikeScript id f replies (w, .storing up) =
              (w.write (storeKey lib id f) data', .evicting reason) := by
            unfold fetchOnce advanceFetch fetchIo
            dsimp only
            rw [hstream, hwarms.stored]
            dsimp only
            rw [henforce, hreason]
          rw [hstoring, Function.iterate_succ_apply]
          show ((fetchOnce lib startsLikeScript id f replies)^[2]
            ((w.write (storeKey lib id f) data').delete (storeKey lib id f),
              .failed (.integrityFailure reason))).1.objects.lookup f.artifactKey = none
          rw [iterate_failed]
          have hne : f.artifactKey ≠ stagingKeyFor id f.artifactKey :=
            (stagingKeyFor_ne_artifactKeyFor id _ f.packageId).symm
          refine hdeleted _ ?_ _
          unfold World.write
          rw [lookup_insert_eq, hkey, if_neg hne]
          exact hwarms.free

end Outcomes

section Claim
variable (lib : Hashes) (startsLikeScript : Bytes → Bool)

/-- The same answer, asked for through the proxy. -/
def WarmTask.fetch (t : WarmTask) (f : Fetch) : Fetch := { f with packageId := t.pkg }

/-- What warming reports as warmed is as a fetch of the same coordinate leaves it, and
warming stores nothing that the fetch refuses. -/
structure WarmsAsFetched (registry : String) (t : WarmTask) (w : World) (id : ℕ) (f : Fetch)
    (replies : Replies) : Prop where
  same : (warmOneVersion lib w registry t f.upstream replies).2 = .warmed →
    (warmOneVersion lib w registry t f.upstream replies).1.objects.lookup t.artifactKey =
      (fetchAndCache lib startsLikeScript w id (t.fetch f) replies).1.objects.lookup t.artifactKey ∧
    (warmOneVersion lib w registry t f.upstream replies).1.rows.lookup t.artifactKey =
      (fetchAndCache lib startsLikeScript w id (t.fetch f) replies).1.rows.lookup t.artifactKey
  refused : (fetchAndCache lib startsLikeScript w id (t.fetch f) replies).2.refused →
    (warmOneVersion lib w registry t f.upstream replies).1.objects.lookup t.artifactKey =
      w.objects.lookup t.artifactKey

/-- The row is recorded under the name and the version of the coordinate, where it is
recorded anew. -/
def NamedAlike (t : WarmTask) (w : World) (replies : Replies) : Prop :=
  replies.record = none → w.rows.lookup t.artifactKey = none →
    t.name = t.pkg.name ∧ t.version = t.pkg.version

variable {lib startsLikeScript}

theorem lookup_recordWith (w : World) (io : Option CoreError) (key : String) (row : MetaRow) :
    (w.recordWith io key row).rows.lookup key =
      if io = none then some (upserted row (w.rows.lookup key)) else w.rows.lookup key := by
  cases io with
  | some e => rw [if_neg (by nofun)]; rfl
  | none =>
    unfold World.recordWith World.recordArtifact
    rw [if_pos rfl, lookup_insert_eq, if_pos rfl]

/-- Two writers leave the same row where it exists already, or where they name it alike. -/
theorem recordWith_eq_iff {t : WarmTask} {registry : String} (hregistry : t.pkg.registry = registry)
    (w : World) (f : Fetch) (replies : Replies) (outcome : StoreOutcome) :
    (w.recordWith replies.record t.artifactKey (t.row registry outcome)).rows.lookup t.artifactKey =
      (w.recordWith replies.record t.artifactKey ((t.fetch f).row outcome)).rows.lookup t.artifactKey ↔
      NamedAlike t w replies := by
  rw [lookup_recordWith, lookup_recordWith]
  unfold NamedAlike
  by_cases hrecord : replies.record = none
  · rw [if_pos hrecord, if_pos hrecord, Option.some.injEq]
    cases hrow : w.rows.lookup t.artifactKey with
    | some old => exact iff_of_true rfl fun _ h => nomatch h
    | none =>
      unfold upserted WarmTask.row WarmTask.fetch Fetch.row
      dsimp only
      rw [hregistry]
      simp only [MetaRow.mk.injEq, true_and, and_true, hrecord, forall_const]
  · rw [if_neg hrecord, if_neg hrecord]
    exact iff_of_true rfl fun h => absurd h hrecord

/-- Warming leaves what a fetch leaves exactly where whatever it warms is taken by the
fetch too, and is recorded under the names of its coordinate: those of a version are, unless
the kind lowers them, and those of a path only if it is the coordinate's `repo`. -/
theorem warms_as_fetched_iff (svc : WarmingService)
    (listVersions : String → Except CoreError (List String)) (entry : WarmEntry)
    (t : { t : WarmTask // t ∈ tasksOf svc listVersions entry }) (w : World) (id : ℕ) (f : Fetch)
    (replies : Replies) :
    (WarmsAsFetched lib startsLikeScript svc.registryName t.1 w id f replies ↔
      ∀ data, Warms w t.1.artifactKey f.upstream replies data →
        Takes lib startsLikeScript (t.1.fetch f) data ∧ NamedAlike t.1 w replies) ∧
    (∀ name version, t.1 ∈ versionTasks svc name version →
      (t.1.name = t.1.pkg.name ∧ t.1.version = t.1.pkg.version ↔
        (svc.kind = some .nuget →
          name = svc.env.toLowercase name ∧ version = svc.env.toLowercase version))) ∧
    ∀ path, entry = .path path →
      (t.1.name = t.1.pkg.name ∧ t.1.version = t.1.pkg.version ↔ path = "repo") := by
  refine ⟨?_, fun name version hmem => named_of_mem_versionTasks hmem, ?_⟩
  rotate_left
  · rintro path rfl
    exact named_path_iff t.2
  obtain ⟨t, ht⟩ := t
  have hregistry := registry_of_mem_tasks ht
  dsimp only
  rcases warmOneVersion_cases lib w svc.registryName t f.upstream replies with
    ⟨data, hwarms, hwarmed⟩ | ⟨hnot, hworld, hreport⟩
  · have hbytes : (warmOneVersion lib w svc.registryName t f.upstream replies).1.objects.lookup
        t.artifactKey = some data := by
      rw [hwarmed, recordWith_objects]
      unfold World.write
      rw [lookup_insert_eq, if_pos rfl]
    have hrows : (warmOneVersion lib w svc.registryName t f.upstream replies).1.rows.lookup
        t.artifactKey = (w.recordWith replies.record t.artifactKey
          (t.row svc.registryName (storeOutcomeOf lib data))).rows.lookup t.artifactKey := by
      rw [hwarmed, lookup_recordWith, lookup_recordWith]
      rfl
    have hreported : (warmOneVersion lib w svc.registryName t f.upstream replies).2 = .warmed := by
      rw [hwarmed]
    constructor
    · intro h data' hwarms'
      have hsame := h.same hreported
      rw [hbytes] at hsame
      obtain ⟨stream, hup, hcontent⟩ := hwarms.answered
      obtain ⟨stream', hup', hcontent'⟩ := hwarms'.answered
      obtain rfl : data = data' := by
        rw [Except.ok.inj (hup.symm.trans hup'), hcontent'] at hcontent
        exact (Option.some.inj hcontent).symm
      have htakes : Takes lib startsLikeScript (t.fetch f) data := by
        by_contra hnot
        have hfree := fetchAndCache_of_not_takes (f := t.fetch f) id hwarms hnot
        exact nomatch hsame.1.trans hfree
      obtain ⟨-, hfetched, -⟩ := fetchAndCache_of_takes (f := t.fetch f) id hwarms htakes
      refine ⟨htakes, (recordWith_eq_iff hregistry w f replies (storeOutcomeOf lib data)).mp ?_⟩
      rw [← hrows, hsame.2, hfetched]
      rfl
    · intro h
      obtain ⟨htakes, hnamed⟩ := h data hwarms
      obtain ⟨hobject, hfetched, hphase⟩ := fetchAndCache_of_takes (f := t.fetch f) id hwarms htakes
      refine ⟨fun _ => ⟨hbytes.trans hobject.symm, ?_⟩, ?_⟩
      · rw [hrows, hfetched]
        exact (recordWith_eq_iff hregistry w f replies (storeOutcomeOf lib data)).mpr hnamed
      · rw [hphase]
        exact False.elim
  · refine iff_of_true ⟨fun h => absurd h hreport, ?_⟩ fun data hwarms => absurd hwarms (hnot data)
    intro _
    rw [hworld]

section Samples

def sampleService (kind : RegistryKind) (registry : String) : WarmingService :=
  ⟨LocalPackages.asciiEnv, some kind, registry, 1, 2, [], fun _ => ""⟩

def noListing (_ : String) : Except CoreError (List String) := .error (.notFound "")

def goodReplies : Replies := ⟨true, none, none, none⟩

/-- A fetch whose advertised checksum is that of other bytes. -/
def mismatchedFetch : Fetch :=
  { plainFetch [97] with checksum := some (sha256Hex sampleHashes [98]) }

/-- A NuGet package is recorded as it was typed, an upstream path as a package, and bytes
that do not match their checksum are stored. -/
theorem warming_leaves_other_than_a_fetch :
    (∃ t ∈ tasksOf (sampleService .nuget "nuget") noListing (.package "Newtonsoft.Json@13.0.1"),
      ¬ WarmsAsFetched sampleHashes (fun _ => false) "nuget" t emptyWorld 0 (plainFetch [97])
        goodReplies) ∧
    (∃ t ∈ tasksOf (sampleService .deb "deb") noListing (.path "dists/stable/InRelease"),
      ¬ WarmsAsFetched sampleHashes (fun _ => false) "deb" t emptyWorld 0 (plainFetch [97])
        goodReplies) ∧
    ∃ t ∈ tasksOf (sampleService .npm "npm") noListing (.package "left-pad@1.0.0"),
      ¬ WarmsAsFetched sampleHashes (fun _ => false) "npm" t emptyWorld 0 mismatchedFetch
        goodReplies := by
  refine ⟨⟨⟨⟨"nuget", "newtonsoft.json", "13.0.1", some "newtonsoft.json.13.0.1.nupkg"⟩,
    "Newtonsoft.Json", "13.0.1"⟩, by decide +kernel, ?_⟩,
    ⟨⟨⟨"deb", "repo", "_", some "dists/stable/InRelease"⟩, "dists/stable/InRelease", "_"⟩,
      by decide +kernel, ?_⟩,
    ⟨⟨⟨"npm", "left-pad", "1.0.0", some "tarball"⟩, "left-pad", "1.0.0"⟩, by decide +kernel, ?_⟩⟩
  · intro h
    have hrow := (h.same (by decide +kernel)).2
    revert hrow
    decide +kernel
  · intro h
    have hrow := (h.same (by decide +kernel)).2
    revert hrow
    decide +kernel
  · intro h
    have hbytes := (h.same (by decide +kernel)).1
    revert hbytes
    decide +kernel

end Samples

end Claim

end BatleHub.ProxyCache
