import BatleHub.ScriptRefusals

/-!
Raw scripts over requests and reloads. A run serves none where they are denied when every
script it meets goes where the check is and shows in its first chunk. What lies in the
cache comes from earlier steps, so what those fetched decides what a later hit serves.
-/
namespace BatleHub.RawScripts

open Lib Integrity ProxyCache ScriptPreambles

section Gaps
variable {lib : Hashes}

/-- Nothing but the check stands between the request and its answer. -/
structure Unhindered (lib : Hashes) (s : State) (r : ProxyRequest) : Prop where
  stays : r.faults = List.replicate 5 none
  trusted : ∀ data, opened (r.serve s.hot) data = .finished (.ok data)
  gate : gateMissingChecksum (r.fetch s.hot) = .ok ()
  accepted : ∀ stream, r.upstream = .ok stream → Accepts lib (r.fetch s.hot) stream

theorem run_finished (w : World) (r : Serve) (result : Except CoreError Bytes)
    (faults : List (Option CoreError)) :
    Runs.run (fun s io => advanceServe lib s.1 r io s.2) (w, .finished result) faults =
      (w, .finished result) := by
  induction faults with
  | nil => rfl
  | cons io rest ih => exact ih

/-- A file that passes everything is answered with, stored or not. -/
theorem fetchAndCache_of_accepts {w : World} {id : ℕ} {f : Fetch} {stream : ByteStream}
    (hopen : openUpstream startsLikeScript f = .ok stream) (haccepts : Accepts lib f stream) :
    (fetchAndCache lib w id f (List.replicate 5 none)).2 =
      some (streamed (.ok (received stream))) := by
  cases hstore : f.noStore with
  | true =>
    obtain ⟨data, hserve⟩ := (accepts_iff_noStoreAccepts f rfl).mp haccepts
    rw [received_of_content (content_of_serveNoStore hserve)]
    simp only [fetchAndCache, Runs.run, List.replicate, List.foldl, advanceFetch, hopen, hstore,
      if_true, hserve, fetchAnswer]
  | false =>
    obtain ⟨data, slot, hstream, hnone⟩ := haccepts
    rw [received_of_content (streamUpstream_eq_ok hstream).1]
    have hne : f.artifactKey ≠ stagingKeyFor id f.artifactKey :=
      fun heq => stagingKeyFor_ne_artifactKeyFor id f.artifactKey f.packageId heq.symm
    cases hstage : mustStage lib f with
    | true =>
      have hkey : storeKey lib id f = stagingKeyFor id f.artifactKey := if_pos hstage
      simp [fetchAndCache, Runs.run, List.replicate, advanceFetch, hopen, hstore, hstream, hnone,
        hstage, hkey, World.write, World.delete, World.recordArtifact, hne, fetchAnswer]
    | false =>
      have hkey : storeKey lib id f = f.artifactKey := if_neg (by simp [hstage])
      simp [fetchAndCache, Runs.run, List.replicate, advanceFetch, hopen, hstore, hstream, hnone,
        hstage, hkey, World.write, World.recordArtifact, fetchAnswer]

theorem exposed_of_refusesScripts {s : State} {r : ProxyRequest} (hfree : Unhindered lib s r)
    (h : RefusesScripts lib s (.request r)) : Exposed s (.request r) := by
  intro hdeny
  have hanswered := h hdeny
  unfold answer serveAfterRules at hanswered
  split_ifs at hanswered ⊢ with hfirewall
  · intro stream hupstream
    exact hanswered stream (by rw [hupstream])
  · rw [← cachedFor] at hanswered
    cases hcached : cachedFor s r with
    | error e => trivial
    | ok found =>
      rw [hcached] at hanswered
      cases found with
      | some data =>
        have hserved := hanswered [.ok data]
          (by simp only [serveCacheHit, hfree.trusted, run_finished]; rfl)
        rwa [received_single] at hserved
      | none =>
        intro stream hupstream hscript
        by_contra hshows
        have haccepts := hfree.accepted stream hupstream
        obtain ⟨data, hcontent, -⟩ := (accepts_iff _ _).mp haccepts
        have hbegins : ∀ e rest, stream ≠ .error e :: rest := by
          rintro e rest rfl
          cases hcontent
        have hopen : openUpstream startsLikeScript (r.fetch s.hot) = .ok stream := by
          rw [← openUpstream_rawDeny]
          · exact openUpstream_unchecked hupstream hfree.gate
          · intro stream' hstream'
            obtain rfl : stream = stream' := Except.ok.inj (hupstream.symm.trans hstream')
            exact ⟨hshows, hbegins⟩
        have hserved := hanswered [.ok (received stream)]
          (by rw [hfree.stays, fetchAndCache_of_accepts hopen haccepts]; rfl)
        rw [received_single, hscript] at hserved
        cases hserved

end Gaps

section History
variable {lib : Hashes}

/-- No script lies under the key. -/
def NoScript (w : World) (key : String) : Prop :=
  ∀ data, w.objects.lookup key = some data → startsLikeScript data = false

theorem noScript_delete {w : World} {key : String} (h : NoScript w key) (gone : String) :
    NoScript (w.delete gone) key := by
  intro data hlookup
  rw [World.delete, AssocMap.lookup_erase_eq] at hlookup
  split_ifs at hlookup
  exact h data hlookup

theorem noScript_write {w : World} {key written : String} {data : Bytes} (h : NoScript w key)
    (hdata : written = key → startsLikeScript data = false) :
    NoScript (w.write written data) key := by
  intro data' hlookup
  rw [World.write, AssocMap.lookup_insert_eq] at hlookup
  split_ifs at hlookup with hkey
  · exact Option.some.inj hlookup ▸ hdata hkey.symm
  · exact h data' hlookup

/-- A fetch that carries no script to the key leaves none there. -/
theorem noScript_advanceFetch {w : World} {id : ℕ} {f : Fetch} {io : Option CoreError}
    {phase : FetchPhase} {packageId : PackageId} (hkeeps : FetchKeeps w id f phase)
    (hclean : f.artifactKey = artifactKeyFor packageId → f.noStore = false →
      ∀ data, Carries f data → startsLikeScript data = false)
    (h : NoScript w (artifactKeyFor packageId)) :
    NoScript (advanceFetch lib startsLikeScript w id f io phase).1 (artifactKeyFor packageId) := by
  have hstaging : ∀ data, NoScript (w.write (stagingKeyFor id f.artifactKey) data)
      (artifactKeyFor packageId) := fun data =>
    noScript_write h fun heq => absurd heq (stagingKeyFor_ne_artifactKeyFor _ _ _)
  have hspec := advanceFetch_spec lib startsLikeScript w id f io phase
  generalize advanceFetch lib startsLikeScript w id f io phase = next at hspec ⊢
  obtain ⟨w', phase'⟩ := next
  dsimp only at hspec ⊢
  cases hspec with
  | condemned stream data reason hstage => exact hstaging data
  | staged stream data hcontent hstage hreason => exact hstaging data
  | stored stream data hcontent hstage =>
    exact noScript_write h fun hkey => hclean hkey hkeeps.2 data ⟨stream, hkeeps.1, hcontent⟩
  | discarded e => exact noScript_delete h _
  | evicted reason => exact noScript_delete h _
  | promoted outcome data hstaged =>
    exact noScript_delete
      (noScript_write h fun hkey => hclean hkey hkeeps.1 data (hkeeps.2 data hstaged)) _
  | _ => exact h

theorem noScript_advanceServe {w : World} {r : Serve} {io : Option CoreError} {phase : ServePhase}
    {key : String} (h : NoScript w key) : NoScript (advanceServe lib w r io phase).1 key := by
  rcases advanceServe_world lib w r io phase with hsame | hdelete | hforget
  · rw [hsame]
    exact h
  · rw [hdelete]
    exact noScript_delete h _
  · rw [hforget]
    exact h

/-- A script that is fetched under the key of a file shows itself to the check, or is not
kept and not asked for of a denying registry. -/
def Shown (packageId : PackageId) (s : State) : Event → Prop
  | .reload _ => True
  | .request r =>
    artifactKeyFor r.packageId = artifactKeyFor packageId →
      ∀ stream, r.upstream = .ok stream → startsLikeScript (received stream) = true →
        if (s.hot.rawDeny r.packageId).isSome then
          s.hot.firewallOnly r.packageId = false ∧ StartShows stream
        else s.hot.firewallOnly r.packageId = true ∨ r.noStore = true

theorem noScript_step {packageId : PackageId} {s : State} {e : Event}
    (h : NoScript s.world (artifactKeyFor packageId)) (hshown : Shown packageId s e) :
    NoScript (step lib s e).world (artifactKeyFor packageId) := by
  cases e with
  | reload hot => exact h
  | request r =>
    show NoScript (serveAfterRules lib s.hot s.world s.nextId r).1 (artifactKeyFor packageId)
    unfold serveAfterRules
    split_ifs with hfirewall
    · exact h
    · split
      · exact h
      · exact Runs.run_keeps_of_forall (fun _ => True)
          (fun s' : World × ServePhase => NoScript s'.1 (artifactKeyFor packageId))
          (fun s' io hs _ => noScript_advanceServe hs) (s.world, _) r.faults h (fun _ _ => trivial)
      · have hclean : (r.fetch s.hot).artifactKey = artifactKeyFor packageId →
            (r.fetch s.hot).noStore = false →
            ∀ data, Carries (r.fetch s.hot) data → startsLikeScript data = false := by
          rintro hkey hstore data ⟨stream, hopen, hcontent⟩
          obtain ⟨hupstream, hunseen⟩ := openUpstream_eq_ok hopen
          rw [← received_of_content hcontent, Bool.eq_false_iff]
          intro hscript
          have hshows := hshown hkey stream hupstream hscript
          split_ifs at hshows with hdeny
          · exact hunseen hdeny hshows.2
          · rcases hshows with hfw | hno
            · exact hfirewall hfw
            · exact absurd (hno.symm.trans hstore) (by decide)
        exact (Runs.run_keeps_of_forall (fun _ => True)
          (fun s' : World × FetchPhase => FetchKeeps s'.1 s.nextId (r.fetch s.hot) s'.2 ∧
            NoScript s'.1 (artifactKeyFor packageId))
          (fun s' io hs _ => ⟨fetchKeeps_advance io hs.1, noScript_advanceFetch hs.1 hclean hs.2⟩)
          (s.world, .fetching) r.faults
          ⟨show FetchKeeps s.world s.nextId (r.fetch s.hot) .fetching from trivial, h⟩
          (fun _ _ => trivial)).2

theorem exposed_of_noScript {packageId : PackageId} {s : State} {r : ProxyRequest}
    (h : NoScript s.world (artifactKeyFor packageId)) (hshown : Shown packageId s (.request r))
    (hkey : artifactKeyFor r.packageId = artifactKeyFor packageId) : Exposed s (.request r) := by
  intro hdeny
  have hscripts : ∀ stream, r.upstream = .ok stream → startsLikeScript (received stream) = true →
      s.hot.firewallOnly r.packageId = false ∧ StartShows stream := by
    intro stream hupstream hscript
    have hshows := hshown hkey stream hupstream hscript
    rwa [if_pos hdeny] at hshows
  split_ifs with hfirewall
  · intro stream hupstream
    rw [Bool.eq_false_iff]
    intro hscript
    exact absurd ((hscripts stream hupstream hscript).1.symm.trans hfirewall) (by decide)
  · split
    · trivial
    · rename_i data hcached
      exact h data (hkey ▸ lookup_of_freshCachedArtifact hcached)
    · exact fun stream hupstream hscript => (hscripts stream hupstream hscript).2

/-- Over a whole run, what is held back from the cache under a key is never served from
it: the condition is on the requests and on the policies they meet. -/
theorem refusesScripts_of_shown {packageId : PackageId} {s : State} {events : List Event}
    (h : NoScript s.world (artifactKeyFor packageId))
    (hshown : Runs.Guarded (step lib) (Shown packageId) s events) :
    Runs.Guarded (step lib) (fun s e => ∀ r, e = .request r →
      artifactKeyFor r.packageId = artifactKeyFor packageId → RefusesScripts lib s e) s events := by
  refine Runs.guarded_of_inv (Shown packageId) _
    (fun s => NoScript s.world (artifactKeyFor packageId))
    (fun s e hs hguard => noScript_step hs hguard) ?_ s events h hshown
  rintro s' e hs hguard r rfl hkey
  exact refusesScripts_of_exposed (exposed_of_noScript hs hguard hkey)

end History

section Traffic
variable (lib : Hashes)

/-- A run whose scripts all show themselves to the check serves none where they are
denied. Where nothing else stops a request this is needed too, and in every run a file that
is no script is let through. Under one key the condition comes down to the requests and the
policies they meet, from a cache without a script there. -/
theorem scripts_are_refused_where_exposed (s : State) (events : List Event) :
    (Runs.Guarded (step lib) Exposed s events →
      Runs.Guarded (step lib) (RefusesScripts lib) s events) ∧
    (∀ before r after, events = before ++ .request r :: after →
      Unhindered lib (run lib s before) r →
      (RefusesScripts lib (run lib s before) (.request r) ↔
        Exposed (run lib s before) (.request r))) ∧
    Runs.Guarded (step lib) (LetsOthersPass lib) s events ∧
    ∀ packageId, NoScript s.world (artifactKeyFor packageId) →
      Runs.Guarded (step lib) (Shown packageId) s events →
      Runs.Guarded (step lib) (fun s e => ∀ r, e = .request r →
        artifactKeyFor r.packageId = artifactKeyFor packageId → RefusesScripts lib s e) s
        events := by
  refine ⟨?_, ?_, ?_, fun packageId => refusesScripts_of_shown⟩
  · exact Runs.guarded_of_inv Exposed (RefusesScripts lib) (fun _ => True)
      (fun _ _ _ _ => trivial) (fun _ _ _ hexposed => refusesScripts_of_exposed hexposed) s events
      trivial
  · intro before r after _ hfree
    exact ⟨exposed_of_refusesScripts hfree, refusesScripts_of_exposed⟩
  · exact Runs.guarded_of_inv (fun _ _ => True) (LetsOthersPass lib) (fun _ => True)
      (fun _ _ _ _ => trivial) (fun s e _ _ => letsOthersPass s e) s events trivial
      (Runs.guarded_of_forall (fun _ => True) s events fun _ _ => trivial)

/-- One registry without a checksum policy. -/
def sampleHot (firewallOnly : Bool) (scripts : ScriptAction) : HotConfig where
  policyIn _ _ := some ⟨firewallOnly, none⟩
  integrity _ := some ⟨false, false, false, [], false⟩
  maxArtifactSizeBytes := none
  forgeRaw _ := some ⟨true, 1024, scripts⟩

def sampleRequest (chunks : List Bytes) : ProxyRequest where
  packageId := ⟨"forge", "cli/cli", "main", some "raw/install"⟩
  role := .user
  now := 0
  checksum := none
  noStore := false
  upstream := .ok (chunks.map .ok)
  retrieve := none
  isArtifactExpired _ := .ok false
  faults := List.replicate 5 none

def sampleState : State := ⟨sampleHot false .deny, emptyWorld, 0⟩

theorem not_refusesScripts {lib : Hashes} {s : State} {r : ProxyRequest} (data : Bytes)
    (hdeny : (s.hot.rawDeny r.packageId).isSome = true)
    (hanswer : answer lib s r = some (.ok [.ok data])) (hscript : startsLikeScript data = true) :
    ¬ RefusesScripts lib s (.request r) := by
  intro h
  have hclean := h hdeny [.ok data] hanswer
  rw [received_single, hscript] at hclean
  cases hclean

/-- A firewalled script, one that was cached while scripts were let through, and one that is
cut inside its first two bytes. -/
theorem scripts_are_served :
    ¬ Runs.Guarded (step sampleHashes) (RefusesScripts sampleHashes) sampleState
        [.reload (sampleHot true .deny), .request (sampleRequest [[35, 33]])] ∧
      ¬ Runs.Guarded (step sampleHashes) (RefusesScripts sampleHashes) sampleState
        [.reload (sampleHot false .warn), .request (sampleRequest [[35, 33]]),
          .reload (sampleHot false .deny), .request (sampleRequest [[35, 33]])] ∧
      ¬ Runs.Guarded (step sampleHashes) (RefusesScripts sampleHashes) sampleState
        [.reload (sampleHot false .deny), .request (sampleRequest [[35], [33]])] := by
  have hscript : startsLikeScript [35, 33] = true := by decide
  refine ⟨fun hguard => ?_, fun hguard => ?_, fun hguard => ?_⟩
  · exact not_refusesScripts [35, 33] (by decide) rfl hscript hguard.2.1
  · exact not_refusesScripts [35, 33] (by decide) (by decide +kernel) hscript hguard.2.2.2.1
  · exact not_refusesScripts [35, 33] (by decide) (by decide +kernel) hscript hguard.2.1

/-- A script in one piece is refused, and one that is cut early is what the condition leaves
out. -/
theorem whole_script_is_refused :
    Runs.Guarded (step sampleHashes) (RefusesScripts sampleHashes) sampleState
      [.reload (sampleHot false .deny), .request (sampleRequest [[35, 33], [10]])] ∧
    ¬ Exposed (run sampleHashes sampleState [.reload (sampleHot false .deny)])
      (.request (sampleRequest [[35], [33]])) := by
  constructor
  · refine (scripts_are_refused_where_exposed sampleHashes sampleState _).1 ⟨trivial, ?_, trivial⟩
    intro _ stream hstream
    obtain rfl := Except.ok.inj hstream
    exact fun _ => ⟨[35, 33], [.ok [10]], rfl, by decide⟩
  · have hfree : Unhindered sampleHashes
        (run sampleHashes sampleState [.reload (sampleHot false .deny)])
        (sampleRequest [[35], [33]]) := by
      refine ⟨rfl, fun _ => rfl, rfl, ?_⟩
      intro stream hstream
      obtain rfl := Except.ok.inj hstream
      exact (accepts_iff _ _).mpr ⟨[35, 33], rfl, by decide, rfl⟩
    rw [← (scripts_are_refused_where_exposed sampleHashes sampleState _).2.1
      [.reload (sampleHot false .deny)] (sampleRequest [[35], [33]]) [] rfl hfree]
    exact not_refusesScripts [35, 33] (by decide) (by decide +kernel) (by decide)

end Traffic

end BatleHub.RawScripts
