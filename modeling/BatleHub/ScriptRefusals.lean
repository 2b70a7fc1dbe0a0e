import BatleHub.ForgeCoordinates
import BatleHub.LocalPackages
import BatleHub.ScriptPreambles
import BatleHub.VerifiedCache

/-!
Where a raw script is refused (`serve_after_rules` in `services/proxy/handle.rs` and the
paths below it). The check stands on one way of the three: a registry that only firewalls
streams from upstream, and a fresh cached file is served as it lies. On the third way it
sees the first chunk alone.
-/
namespace BatleHub.RawScripts

open Lib Integrity ProxyCache ScriptPreambles
open Forge (ForgeCoordinate)
open LocalPackages (DateTime)

inductive ScriptAction where
  | warn
  | deny
  | ignore
  deriving DecidableEq, Repr

structure RawPolicy where
  enabled : Bool
  maxSizeBytes : ℕ
  scripts : ScriptAction
  deriving DecidableEq, Repr

structure RegistryPolicy where
  firewallOnly : Bool
  artifactTtl : Option ℕ
  deriving DecidableEq, Repr

def IntegrityPolicy.default : IntegrityPolicy := ⟨true, true, false, [], false⟩

structure HotConfig where
  /-- The policy that governs a package of a registry. -/
  policyIn : String → String → Option RegistryPolicy
  integrity : String → Option IntegrityPolicy
  maxArtifactSizeBytes : Option ℕ
  forgeRaw : String → Option RawPolicy

/-- The path, where this is a raw file. -/
def rawPath (packageId : PackageId) : Option String :=
  (ForgeCoordinate.fromPackageId packageId).bind ForgeCoordinate.path?

namespace HotConfig

def denies (hot : HotConfig) (registry : String) : Bool :=
  (hot.forgeRaw registry).any fun p => p.enabled && decide (p.scripts = .deny)

/-- The path, where this is a raw file of a registry that denies scripts. -/
def rawDeny (hot : HotConfig) (packageId : PackageId) : Option String :=
  (rawPath packageId).filter fun _ => hot.denies packageId.registry

def limitFor (hot : HotConfig) (packageId : PackageId) : ℕ :=
  let limit := hot.maxArtifactSizeBytes.getD (500 * 1024 * 1024)
  let rawLimit := ((hot.forgeRaw packageId.registry).filter RawPolicy.enabled).map
    RawPolicy.maxSizeBytes
  match rawLimit, rawPath packageId with
  | some raw, some _ => min limit raw
  | _, _ => limit

def integrityFor (hot : HotConfig) (registry : String) : IntegrityPolicy :=
  (hot.integrity registry).getD IntegrityPolicy.default

def policyFor (hot : HotConfig) (packageId : PackageId) : Option RegistryPolicy :=
  hot.policyIn packageId.registry packageId.name

def firewallOnly (hot : HotConfig) (packageId : PackageId) : Bool :=
  ((hot.policyFor packageId).map RegistryPolicy.firewallOnly).getD false

/-- The same configuration, not looking at scripts. -/
def ignoringScripts (hot : HotConfig) : HotConfig :=
  { hot with forgeRaw := fun registry =>
      (hot.forgeRaw registry).map fun p => { p with scripts := .ignore } }

end HotConfig

/-- A request that the rules have allowed, what upstream answers to it, and how the stores
take its operations. -/
structure ProxyRequest where
  packageId : PackageId
  role : Role
  now : DateTime
  checksum : Option String
  noStore : Bool
  upstream : Except CoreError ByteStream
  retrieve : Option CoreError
  isArtifactExpired : DateTime → Except CoreError Bool
  /-- The faults of the operations after that, one by one until the client is gone. -/
  faults : List (Option CoreError)

def ProxyRequest.fetch (r : ProxyRequest) (hot : HotConfig) : Fetch where
  packageId := r.packageId
  role := r.role
  integrity := hot.integrityFor r.packageId.registry
  checksum := r.checksum
  limit := hot.limitFor r.packageId
  rawDeny := hot.rawDeny r.packageId
  noStore := r.noStore
  upstream := r.upstream

def ProxyRequest.serve (r : ProxyRequest) (hot : HotConfig) : Serve :=
  ⟨r.packageId, hot.integrityFor r.packageId.registry⟩

/-- `Duration::from_std`, with the duration in nanoseconds. -/
def fromStd (ttl : ℕ) : Option ℤ := if ttl ≤ (2 ^ 63 - 1) * 10 ^ 6 then some ttl else none

section Paths
variable (lib : Hashes)

/-- The stream a request is answered with, or the error it fails with. -/
abbrev Answer := Except CoreError ByteStream

def streamed (result : Except CoreError Bytes) : Answer := result.map fun data => [.ok data]

def freshCachedArtifact (w : World) (r : ProxyRequest) (artifactTtl : Option ℕ) :
    Except CoreError (Option Bytes) :=
  match r.retrieve, w.objects.lookup (artifactKeyFor r.packageId) with
  | some e, _ => .error e
  | none, none => .ok none
  | none, some data =>
    match artifactTtl.bind fromStd with
    | none => .ok (some data)
    | some d =>
      (r.isArtifactExpired (r.now - d)).map fun expired => if expired then none else some data

def serveAnswer : ServePhase → Option Answer
  | .finished result => some (streamed result)
  | _ => none

/-- A file found in the cache is checked again where the policy says so. -/
def opened (r : Serve) (data : Bytes) : ServePhase :=
  if r.integrity.enabled && r.integrity.verifyOnServe then .checking data
  else .finished (.ok data)

def serveCacheHit (w : World) (r : Serve) (data : Bytes) (faults : List (Option CoreError)) :
    World × Option Answer :=
  let (w', phase) := Runs.run (fun s io => advanceServe lib s.1 r io s.2) (w, opened r data) faults
  (w', serveAnswer phase)

def fetchAnswer : FetchPhase → Option Answer
  | .failed e => some (.error e)
  | .finished result => some (streamed result)
  | _ => none

def fetchAndCache (w : World) (id : ℕ) (f : Fetch) (faults : List (Option CoreError)) :
    World × Option Answer :=
  let (w', phase) := Runs.run (fun s io => advanceFetch lib startsLikeScript s.1 id f io s.2)
    (w, FetchPhase.fetching) faults
  (w', fetchAnswer phase)

/-- What the request leaves, and its answer where the client stays for it. -/
def serveAfterRules (hot : HotConfig) (w : World) (id : ℕ) (r : ProxyRequest) :
    World × Option Answer :=
  if hot.firewallOnly r.packageId then (w, some r.upstream)
  else
    match freshCachedArtifact w r ((hot.policyFor r.packageId).bind RegistryPolicy.artifactTtl) with
    | .error e => (w, some (.error e))
    | .ok (some data) => serveCacheHit lib w (r.serve hot) data r.faults
    | .ok none => fetchAndCache lib w id (r.fetch hot) r.faults

/-- The configuration in force, the stores, and the next staging id. -/
structure State where
  hot : HotConfig
  world : World
  nextId : ℕ

inductive Event where
  | reload (hot : HotConfig)
  | request (r : ProxyRequest)

def answer (s : State) (r : ProxyRequest) : Option Answer :=
  (serveAfterRules lib s.hot s.world s.nextId r).2

def step (s : State) : Event → State
  | .reload hot => { s with hot }
  | .request r => ⟨s.hot, (serveAfterRules lib s.hot s.world s.nextId r).1, s.nextId + 1⟩

def run (s : State) (events : List Event) : State := Runs.run (step lib) s events

end Paths

section Refusals
variable {lib : Hashes}

/-- What of a stream arrives. -/
def received : ByteStream → Bytes
  | .ok chunk :: rest => chunk ++ received rest
  | _ => []

theorem received_of_content {stream : ByteStream} {data : Bytes} (h : content stream = some data) :
    received stream = data := by
  induction stream generalizing data with
  | nil =>
    rw [content, chunksOf, Option.map_some, Option.some.injEq] at h
    exact h
  | cons item rest ih =>
    cases item with
    | error e => simp [content, chunksOf] at h
    | ok chunk =>
      rw [content_cons_ok, Option.map_eq_some_iff] at h
      obtain ⟨tail, htail, rfl⟩ := h
      rw [received, ih htail]

theorem received_single (data : Bytes) : received [.ok data] = data := List.append_nil data

theorem received_streamed {data : Bytes} {stream : ByteStream}
    (h : streamed (.ok data) = .ok stream) : received stream = data := by
  obtain rfl := Except.ok.inj h
  exact received_single data

/-- The check sees a script where its first chunk is one. -/
def StartShows (stream : ByteStream) : Prop :=
  ∃ chunk rest, stream = .ok chunk :: rest ∧ startsLikeScript chunk = true

/-- What the check refuses is a script, however it is cut. -/
theorem startsLikeScript_of_startShows {stream : ByteStream} (h : StartShows stream) :
    startsLikeScript (received stream) = true := by
  obtain ⟨chunk, rest, rfl, hchunk⟩ := h
  exact startsLikeScript_append (received rest) hchunk

theorem peekForScript_eq_ok {stream stream' : ByteStream} {path : String}
    (h : peekForScript startsLikeScript stream path = .ok stream') :
    stream' = stream ∧ ¬ StartShows stream := by
  cases stream with
  | nil =>
    obtain rfl := Except.ok.inj h
    refine ⟨rfl, ?_⟩
    rintro ⟨chunk, rest, hnil, -⟩
    cases hnil
  | cons item rest =>
    cases item with
    | error e => cases h
    | ok chunk =>
      rw [peekForScript] at h
      split_ifs at h with hscript
      obtain rfl := Except.ok.inj h
      refine ⟨rfl, ?_⟩
      rintro ⟨chunk', rest', heq, hshows⟩
      obtain ⟨rfl, rfl⟩ : chunk' = chunk ∧ rest' = rest := by simpa [eq_comm] using heq
      exact hscript hshows

/-- A stream that neither shows a script nor fails at once is handed on. -/
theorem peekForScript_of_not_startShows {stream : ByteStream} {path : String}
    (hshows : ¬ StartShows stream) (hbegins : ∀ e rest, stream ≠ .error e :: rest) :
    peekForScript startsLikeScript stream path = .ok stream := by
  cases stream with
  | nil => rfl
  | cons item rest =>
    cases item with
    | error e => exact absurd rfl (hbegins e rest)
    | ok chunk =>
      rw [peekForScript, if_neg]
      exact fun hscript => hshows ⟨chunk, rest, rfl, hscript⟩

theorem openUpstream_eq_ok {f : Fetch} {stream : ByteStream}
    (h : openUpstream startsLikeScript f = .ok stream) :
    f.upstream = .ok stream ∧ (f.rawDeny.isSome = true → ¬ StartShows stream) := by
  unfold openUpstream at h
  cases hupstream : f.upstream with
  | error e => simp [hupstream, bind, Except.bind] at h
  | ok stream' =>
    simp only [hupstream, bind, Except.bind] at h
    cases hrefuse : refuseRawScript startsLikeScript f stream' with
    | error e => simp [hrefuse] at h
    | ok stream'' =>
      simp only [hrefuse] at h
      cases hgate : gateMissingChecksum f with
      | error e => simp [hgate] at h
      | ok _ =>
        obtain rfl : stream'' = stream := by simpa [hgate, pure, Except.pure] using h
        cases hdeny : f.rawDeny with
        | none =>
          rw [refuseRawScript, hdeny] at hrefuse
          exact ⟨congrArg _ (Except.ok.inj hrefuse), by simp⟩
        | some path =>
          rw [refuseRawScript, hdeny] at hrefuse
          obtain ⟨rfl, hshows⟩ := peekForScript_eq_ok hrefuse
          exact ⟨rfl, fun _ => hshows⟩

/-- The file that a fetch carries, when it has passed what comes before its bytes. -/
def Carries (f : Fetch) (data : Bytes) : Prop :=
  ∃ stream, openUpstream startsLikeScript f = .ok stream ∧ content stream = some data

/-- What a fetch holds between two operations. -/
def FetchKeeps (w : World) (id : ℕ) (f : Fetch) : FetchPhase → Prop
  | .storing stream => openUpstream startsLikeScript f = .ok stream ∧ f.noStore = false
  | .promoting _ => f.noStore = false ∧
      ∀ data, w.objects.lookup (stagingKeyFor id f.artifactKey) = some data → Carries f data
  | .recording _ | .retrieving => ∀ data, w.objects.lookup f.artifactKey = some data →
      Carries f data
  | .finished (.ok data) => Carries f data
  | _ => True

theorem content_of_serveNoStore {f : Fetch} {stream : ByteStream} {data : Bytes}
    (h : serveNoStore lib f stream = .ok data) : content stream = some data := by
  unfold serveNoStore at h
  cases hbuffer : bufferUpTo f.limit [] stream with
  | error e => simp [hbuffer, bind, Except.bind] at h
  | ok buffered =>
    obtain ⟨tail, htail, hdata, -⟩ := (bufferUpTo_iff (Nat.zero_le _) stream buffered).mp hbuffer
    have hsame : buffered = data := by
      simp only [hbuffer, bind, Except.bind] at h
      split_ifs at h
      · split at h
        · exact Except.ok.inj h
        · split at h
          · cases h
          · exact Except.ok.inj h
      · exact Except.ok.inj h
    rw [htail, ← hsame, hdata, List.nil_append]

theorem fetchKeeps_advance {w : World} {id : ℕ} {f : Fetch} (io : Option CoreError)
    {phase : FetchPhase} (h : FetchKeeps w id f phase) :
    FetchKeeps (advanceFetch lib startsLikeScript w id f io phase).1 id f
      (advanceFetch lib startsLikeScript w id f io phase).2 := by
  have hwritten : ∀ (key : String) (data : Bytes), Carries f data →
      ∀ data', (w.write key data).objects.lookup key = some data' → Carries f data' := by
    intro key data hcarries data' hlookup
    rw [World.write, AssocMap.lookup_insert_eq, if_pos rfl] at hlookup
    exact Option.some.inj hlookup ▸ hcarries
  cases phase with
  | fetching =>
    simp only [advanceFetch]
    split
    · trivial
    · rename_i stream hopen
      split
      · split
        · trivial
        · rename_i data hserve
          exact ⟨stream, hopen, content_of_serveNoStore hserve⟩
      · rename_i hstore
        exact ⟨hopen, Bool.eq_false_iff.mpr hstore⟩
  | storing stream =>
    simp only [advanceFetch]
    split
    · rename_i data slot hstream
      have hcarries : Carries f data := ⟨stream, h.1, (streamUpstream_eq_ok hstream).1⟩
      dsimp only
      split
      · trivial
      · split
        · rename_i hstage
          have hkey : storeKey lib id f = stagingKeyFor id f.artifactKey := if_pos hstage
          rw [hkey]
          exact ⟨h.2, hwritten _ data hcarries⟩
        · rename_i hstage
          have hkey : storeKey lib id f = f.artifactKey := if_neg hstage
          rw [hkey]
          exact hwritten _ data hcarries
    · split <;> trivial
    · split <;> trivial
  | discarding e => cases io <;> trivial
  | evicting reason => cases io <;> trivial
  | promoting outcome =>
    simp only [advanceFetch]
    split
    · trivial
    · trivial
    · rename_i data hlookup
      intro data' hlookup'
      have hne : f.artifactKey ≠ stagingKeyFor id f.artifactKey :=
        fun heq => stagingKeyFor_ne_artifactKeyFor id f.artifactKey f.packageId heq.symm
      rw [World.delete, AssocMap.lookup_erase_eq, if_neg hne] at hlookup'
      exact hwritten _ data (h.2 data hlookup) data' hlookup'
  | recording outcome =>
    cases io with
    | some e => exact h
    | none => exact h
  | retrieving =>
    simp only [advanceFetch]
    split
    · trivial
    · trivial
    · rename_i data hlookup
      exact h data hlookup
  | failed e => trivial
  | finished result => exact h

/-- What a fetch answers with is what it has carried past the check. -/
theorem carries_of_fetchAndCache {w : World} {id : ℕ} {f : Fetch}
    {faults : List (Option CoreError)} {stream : ByteStream}
    (h : (fetchAndCache lib w id f faults).2 = some (.ok stream)) :
    Carries f (received stream) := by
  have hkeeps : FetchKeeps _ id f (Runs.run (fun s io => advanceFetch lib startsLikeScript s.1 id f
      io s.2) (w, FetchPhase.fetching) faults).2 :=
    Runs.run_keeps_of_forall (fun _ => True)
      (fun s : World × FetchPhase => FetchKeeps s.1 id f s.2)
      (fun s io hs _ => fetchKeeps_advance io hs) (w, .fetching) faults
      (show FetchKeeps w id f .fetching from trivial) (fun _ _ => trivial)
  rw [fetchAndCache] at h
  dsimp only at h
  cases hphase : (Runs.run (fun s io => advanceFetch lib startsLikeScript s.1 id f io s.2)
      (w, FetchPhase.fetching) faults).2 with
  | finished result =>
    rw [hphase] at h hkeeps
    cases result with
    | error e => cases h
    | ok data =>
      rw [received_streamed (Option.some.inj h)]
      exact hkeeps
  | _ =>
    rw [hphase] at h
    cases h

/-- What a reader of a cached file holds between two operations. -/
def ServeKeeps (w : World) (r : Serve) (data : Bytes) : ServePhase → Prop
  | .checking opened => opened = data ∧ w.objects.lookup r.artifactKey = some data
  | .opening | .reopening => w.objects.lookup r.artifactKey = some data
  | .finished (.ok sent) => sent = data
  | _ => True

theorem serveKeeps_advance {w : World} {r : Serve} {data : Bytes} (io : Option CoreError)
    {phase : ServePhase} (h : ServeKeeps w r data phase) :
    ServeKeeps (advanceServe lib w r io phase).1 r data (advanceServe lib w r io phase).2 := by
  cases phase with
  | opening =>
    have hlookup : w.objects.lookup r.artifactKey = some data := h
    cases io with
    | some e => trivial
    | none =>
      simp only [advanceServe, hlookup]
      split
      · exact ⟨rfl, hlookup⟩
      · rfl
  | checking opened =>
    obtain ⟨rfl, hlookup⟩ := h
    cases io with
    | some e => trivial
    | none =>
      simp only [advanceServe]
      cases w.getArtifactChecksum r.artifactKey with
      | none => rfl
      | some expected =>
        rw [reverifyOnServe]
        split
        · split
          · exact hlookup
          · rfl
        · trivial
        · rfl
  | reopening =>
    have hlookup : w.objects.lookup r.artifactKey = some data := h
    cases io with
    | some e => trivial
    | none =>
      simp only [advanceServe, hlookup]
      rfl
  | evicting reason => cases io <;> trivial
  | forgetting reason => cases io <;> trivial
  | missed => trivial
  | finished result => exact h

/-- A hit is answered with the file that lies in the cache. -/
theorem received_of_serveCacheHit {w : World} {r : Serve} {data : Bytes}
    {faults : List (Option CoreError)} {stream : ByteStream}
    (hcached : w.objects.lookup r.artifactKey = some data)
    (h : (serveCacheHit lib w r data faults).2 = some (.ok stream)) : received stream = data := by
  have hopened : ServeKeeps w r data (opened r data) := by
    rw [opened]
    split
    · exact ⟨rfl, hcached⟩
    · rfl
  have hkeeps : ServeKeeps _ r data (Runs.run (fun s io => advanceServe lib s.1 r io s.2)
      (w, opened r data) faults).2 :=
    Runs.run_keeps_of_forall (fun _ => True)
      (fun s : World × ServePhase => ServeKeeps s.1 r data s.2)
      (fun s io hs _ => serveKeeps_advance io hs) (w, opened r data) faults hopened
      (fun _ _ => trivial)
  rw [serveCacheHit] at h
  dsimp only at h
  cases hphase : (Runs.run (fun s io => advanceServe lib s.1 r io s.2) (w, opened r data)
      faults).2 with
  | finished result =>
    rw [hphase] at h hkeeps
    cases result with
    | error e => cases h
    | ok sent =>
      rw [received_streamed (Option.some.inj h)]
      exact hkeeps
  | _ =>
    rw [hphase] at h
    cases h

end Refusals

section Requests
variable {lib : Hashes}

/-- What lies in the cache for the request, where it is fresh. -/
def cachedFor (s : State) (r : ProxyRequest) : Except CoreError (Option Bytes) :=
  freshCachedArtifact s.world r ((s.hot.policyFor r.packageId).bind RegistryPolicy.artifactTtl)

theorem lookup_of_freshCachedArtifact {w : World} {r : ProxyRequest} {ttl : Option ℕ}
    {data : Bytes} (h : freshCachedArtifact w r ttl = .ok (some data)) :
    w.objects.lookup (artifactKeyFor r.packageId) = some data := by
  rw [freshCachedArtifact] at h
  split at h
  · cases h
  · cases h
  · rename_i found hlookup
    rw [hlookup]
    split at h
    · exact Except.ok.inj h
    · obtain ⟨expired, -, hdata⟩ := (map_eq_ok_iff _ _ _).mp h
      cases expired with
      | true => cases hdata
      | false => exact hdata

/-- A script that a denying registry is asked for goes where the check is, and its first
chunk shows it. -/
def Exposed (s : State) : Event → Prop
  | .reload _ => True
  | .request r =>
    (s.hot.rawDeny r.packageId).isSome = true →
      if s.hot.firewallOnly r.packageId then
        ∀ stream, r.upstream = .ok stream → startsLikeScript (received stream) = false
      else
        match cachedFor s r with
        | .error _ => True
        | .ok (some data) => startsLikeScript data = false
        | .ok none => ∀ stream, r.upstream = .ok stream →
            startsLikeScript (received stream) = true → StartShows stream

/-- What a denying registry is asked for and serves is no script. -/
def RefusesScripts (lib : Hashes) (s : State) : Event → Prop
  | .reload _ => True
  | .request r =>
    (s.hot.rawDeny r.packageId).isSome = true →
      ∀ stream, answer lib s r = some (.ok stream) → startsLikeScript (received stream) = false

theorem refusesScripts_of_exposed {s : State} {e : Event} (h : Exposed s e) :
    RefusesScripts lib s e := by
  cases e with
  | reload hot => trivial
  | request r =>
    intro hdeny stream hanswer
    have hexposed := h hdeny
    simp only [answer, serveAfterRules] at hanswer
    split_ifs at hanswer hexposed with hfirewall
    · exact hexposed stream (Option.some.inj hanswer)
    · rw [cachedFor] at hexposed
      split at hanswer
      · cases hanswer
      · rename_i data hcached
        rw [hcached] at hexposed
        have hlookup : s.world.objects.lookup (r.serve s.hot).artifactKey = some data :=
          lookup_of_freshCachedArtifact hcached
        rw [received_of_serveCacheHit hlookup hanswer]
        exact hexposed
      · rename_i hmissed
        rw [hmissed] at hexposed
        obtain ⟨upstream, hopen, hcontent⟩ := carries_of_fetchAndCache hanswer
        obtain ⟨hupstream, hshows⟩ := openUpstream_eq_ok hopen
        rw [← received_of_content hcontent, Bool.eq_false_iff]
        exact fun hscript => hshows hdeny (hexposed upstream hupstream hscript)

/-- A file that is no script is answered for as if nobody looked at scripts. -/
def LetsOthersPass (lib : Hashes) (s : State) : Event → Prop
  | .reload _ => True
  | .request r =>
    (s.hot.firewallOnly r.packageId = false → cachedFor s r = .ok none →
      ∀ stream, r.upstream = .ok stream →
        startsLikeScript (received stream) = false ∧ ∀ e rest, stream ≠ .error e :: rest) →
      serveAfterRules lib s.hot s.world s.nextId r =
        serveAfterRules lib s.hot.ignoringScripts s.world s.nextId r

theorem limitFor_ignoringScripts (hot : HotConfig) (packageId : PackageId) :
    hot.ignoringScripts.limitFor packageId = hot.limitFor packageId := by
  simp only [HotConfig.limitFor, HotConfig.ignoringScripts]
  rcases hot.forgeRaw packageId.registry with _ | ⟨enabled, maxSizeBytes, scripts⟩
  · rfl
  · cases enabled <;> rfl

theorem rawDeny_ignoringScripts (hot : HotConfig) (packageId : PackageId) :
    hot.ignoringScripts.rawDeny packageId = none := by
  have hdenies : hot.ignoringScripts.denies packageId.registry = false := by
    simp only [HotConfig.denies, HotConfig.ignoringScripts]
    cases hot.forgeRaw packageId.registry with
    | none => rfl
    | some p => simp
  unfold HotConfig.rawDeny
  rw [hdenies]
  cases rawPath packageId with
  | none => rfl
  | some path => rfl

theorem fetch_ignoringScripts (hot : HotConfig) (r : ProxyRequest) :
    r.fetch hot.ignoringScripts = { r.fetch hot with rawDeny := none } := by
  unfold ProxyRequest.fetch
  rw [limitFor_ignoringScripts, rawDeny_ignoringScripts]
  rfl

/-- The check is made before anything else is done with the bytes. -/
theorem advanceFetch_rawDeny {w : World} {id : ℕ} {f : Fetch}
    (h : openUpstream startsLikeScript { f with rawDeny := none } =
      openUpstream startsLikeScript f) (io : Option CoreError) (phase : FetchPhase) :
    advanceFetch lib startsLikeScript w id { f with rawDeny := none } io phase =
      advanceFetch lib startsLikeScript w id f io phase := by
  cases phase with
  | fetching =>
    simp only [advanceFetch, h]
    rfl
  | _ => rfl

theorem openUpstream_rawDeny {f : Fetch}
    (h : ∀ stream, f.upstream = .ok stream →
      ¬ StartShows stream ∧ ∀ e rest, stream ≠ .error e :: rest) :
    openUpstream startsLikeScript { f with rawDeny := none } = openUpstream startsLikeScript f := by
  unfold openUpstream
  cases hupstream : f.upstream with
  | error e => rfl
  | ok stream =>
    have hpass : refuseRawScript startsLikeScript f stream = .ok stream := by
      rw [refuseRawScript]
      cases f.rawDeny with
      | none => rfl
      | some path =>
        exact peekForScript_of_not_startShows (h stream hupstream).1 (h stream hupstream).2
    simp only [bind, Except.bind, hpass]
    rfl

theorem openUpstream_unchecked {f : Fetch} {stream : ByteStream}
    (hupstream : f.upstream = .ok stream) (hgate : gateMissingChecksum f = .ok ()) :
    openUpstream startsLikeScript { f with rawDeny := none } = .ok stream := by
  have hgate' : gateMissingChecksum { f with rawDeny := none } = .ok () := hgate
  unfold openUpstream
  rw [hgate']
  dsimp only
  rw [hupstream]
  rfl

theorem letsOthersPass (s : State) (e : Event) : LetsOthersPass lib s e := by
  cases e with
  | reload hot => trivial
  | request r =>
    intro hclean
    have hfirewall : s.hot.ignoringScripts.firewallOnly r.packageId =
      s.hot.firewallOnly r.packageId := rfl
    unfold serveAfterRules
    rw [hfirewall]
    split_ifs with hf
    · rfl
    · have hpolicy : s.hot.ignoringScripts.policyFor r.packageId =
        s.hot.policyFor r.packageId := rfl
      rw [hpolicy]
      split
      · rfl
      · rfl
      · rename_i hmissed
        have hopen : openUpstream startsLikeScript { r.fetch s.hot with rawDeny := none } =
            openUpstream startsLikeScript (r.fetch s.hot) := by
          apply openUpstream_rawDeny
          intro stream hstream
          obtain ⟨hscript, hbegins⟩ := hclean (by simpa using hf) hmissed stream hstream
          refine ⟨fun hshows => ?_, hbegins⟩
          rw [startsLikeScript_of_startShows hshows] at hscript
          cases hscript
        rw [fetch_ignoringScripts, fetchAndCache, fetchAndCache]
        simp only [advanceFetch_rawDeny hopen]

end Requests

end BatleHub.RawScripts
