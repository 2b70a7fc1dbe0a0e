import BatleHub.Searches

/-!
No search tells a caller of a private name. The cache holds what the upstream answered and
nothing else, so of the names published here a response has those that this caller may
see and those that the upstream has named. What the other callers may see is in no part
of the state that a call reads.
-/
namespace BatleHub.Search

open LocalPackages (Json)
open Lib.AssocMap

variable (registry : String)

section Names

/-- Every hit is named by the upstream. -/
def Named (named : List String) (hits : List SearchHit) : Prop :=
  ∀ hit ∈ hits, hit.name ∈ named

/-- A published name among the hits is one that the caller may see, or that the upstream
has named. -/
def Clean (named : List String) (localSearch : LocalSearch) (hits : List SearchHit) : Prop :=
  ∀ hit ∈ hits, hit.name ∈ localSearch.allNames →
    (∃ l ∈ localSearch.hits, l.name = hit.name) ∨ hit.name ∈ named

def Entry.Named (named : List String) (entry : Json) : Prop :=
  ∀ hits, decodeHits entry = some hits → Search.Named named hits

def Phase.Clean (named : List String) (localSearch : LocalSearch) : Phase → Prop
  | .store hits => Search.Named named hits
  | .finish hits _ => Search.Clean named localSearch hits
  | .done (.ok results) => Search.Clean named localSearch results.hits
  | _ => True

structure Inv (w : World) : Prop where
  live : ∀ key entry, w.cache.live.lookup key = some entry → Entry.Named w.named entry
  shadow : ∀ key entry, w.cache.shadow.lookup key = some entry → Entry.Named w.named entry
  calls : ∀ id c, w.calls.lookup id = some c → c.phase.Clean w.named c.localSearch

variable {named named' : List String} {hits : List SearchHit}

theorem Named.mono (h : Named named hits) (hsub : ∀ n ∈ named, n ∈ named') :
    Named named' hits :=
  fun hit hhit => hsub _ (h hit hhit)

theorem Clean.mono {localSearch : LocalSearch} (h : Clean named localSearch hits)
    (hsub : ∀ n ∈ named, n ∈ named') : Clean named' localSearch hits := by
  intro hit hhit hname
  rcases h hit hhit hname with hown | hnamed
  · exact .inl hown
  · exact .inr (hsub _ hnamed)

theorem Phase.Clean.mono {localSearch : LocalSearch} {phase : Phase}
    (h : phase.Clean named localSearch) (hsub : ∀ n ∈ named, n ∈ named') :
    phase.Clean named' localSearch := by
  cases phase with
  | store hits => exact Named.mono h hsub
  | finish hits freshness => exact Search.Clean.mono h hsub
  | done response =>
    cases response with
    | error e => trivial
    | ok results => exact Search.Clean.mono h hsub
  | lookup | client | upstream | stale | held => trivial

/-- Joining the caller's half adds what the caller may see. -/
theorem clean_merged (c : Call)
    (h : ∀ hit ∈ hits, hit.name ∈ c.localSearch.allNames → hit.name ∈ named) :
    Clean named c.localSearch (c.merged hits) := by
  intro hit hhit hname
  have hcases : hit ∈ hits ∨ hit ∈ c.localSearch.hits := by
    unfold Call.merged at hhit
    split at hhit
    · exact mem_mergeLocal hhit
    · exact .inl hhit
  rcases hcases with hhits | hown
  · exact .inr (h hit hhits hname)
  · exact .inl ⟨hit, hown, rfl⟩

theorem clean_merged_of_named (c : Call) (h : Named named hits) :
    Clean named c.localSearch (c.merged hits) :=
  clean_merged c fun hit hhit _ => h hit hhit

theorem clean_finish {localSearch : LocalSearch} (contains : String → String → Bool)
    (freshness : Freshness) (h : Clean named localSearch hits) :
    Clean named localSearch (finish contains hits freshness).hits := by
  intro hit hhit hname
  exact h hit (List.mem_filter.mp hhit).1 hname

end Names

section Steps
variable {registry} {w : World}

theorem named_subset (named : List String) (c : Call) (answer : Answer) :
    ∀ n ∈ named, n ∈ namedAfter named c answer := by
  intro n hn
  unfold namedAfter
  split
  · exact List.mem_append_left _ hn
  · exact hn

theorem Inv.cachedHits_named (h : Inv w) {key : String} {available : Bool}
    {hits : List SearchHit} (hhits : cachedHits w.cache key available = some hits) :
    Named w.named hits := by
  obtain ⟨entry, hentry, hdecode⟩ := Option.bind_eq_some_iff.mp hhits
  unfold CacheStore.get at hentry
  split at hentry
  · exact h.live key entry hentry hits hdecode
  · cases hentry

theorem Inv.staleHits_named (h : Inv w) {key : String} {available : Bool}
    {hits : List SearchHit} (hhits : staleHits w.cache key available = some hits) :
    Named w.named hits := by
  obtain ⟨entry, hentry, hdecode⟩ := Option.bind_eq_some_iff.mp hhits
  unfold CacheStore.getStale at hentry
  split at hentry
  · exact h.shadow key entry hentry hits hdecode
  · cases hentry

/-- What an answer takes a call to, rung by rung. -/
theorem clean_nextPhase (h : Inv w) {id : ℕ} {c : Call} (hc : w.calls.lookup id = some c)
    (answer : Answer) :
    (nextPhase registry w.cache c answer).Clean (namedAfter w.named c answer)
      c.localSearch := by
  have hphase := h.calls id c hc
  have hsub := named_subset w.named c answer
  unfold nextPhase
  split
  · -- a fresh cached answer
    split
    · rename_i hits hhits
      have hclean := clean_merged_of_named c (h.cachedHits_named hhits)
      exact hclean.mono hsub
    · trivial
  · split_ifs
    · trivial
    · trivial
  · -- the upstream's answer
    rename_i found hp
    intro hit hhit
    obtain ⟨p, hpfound, rfl⟩ := List.mem_map.mp hhit
    unfold namedAfter
    rw [hp]
    have hname : p.name ∈ found.map UpstreamPackage.name := List.mem_map_of_mem hpfound
    exact List.mem_append_right _ hname
  · trivial
  · rename_i hits live shadow hp
    rw [hp] at hphase
    exact (clean_merged_of_named c hphase).mono hsub
  · -- a stale cached answer
    split
    · rename_i hits hhits
      split_ifs at hhits with hserves
      exact (clean_merged_of_named c (h.staleHits_named hhits)).mono hsub
    · trivial
  · -- the packages held here, without the published ones
    refine clean_merged c fun hit hhit hname => ?_
    have hnot := (List.mem_filter.mp hhit).2
    exact absurd hname (by simpa using hnot)
  · rename_i hits freshness contains hp
    rw [hp] at hphase
    have hclean := clean_finish contains freshness hphase
    exact Clean.mono hclean hsub
  · exact hphase.mono hsub

theorem Entry.Named.mono {named named' : List String} {entry : Json} (h : Entry.Named named entry)
    (hsub : ∀ n ∈ named, n ∈ named') : Entry.Named named' entry :=
  fun hits hdecode => (h hits hdecode).mono hsub

/-- What is in the cache after an answer was there before it, or is what the upstream
answered. -/
theorem lookup_cacheAfter {cache : CacheStore} {c : Call} {answer : Answer} {key : String}
    {entry : Json}
    (h : (cacheAfter registry cache c answer).live.lookup key = some entry ∨
      (cacheAfter registry cache c answer).shadow.lookup key = some entry) :
    (cache.live.lookup key = some entry ∨ cache.shadow.lookup key = some entry) ∨
      ∃ hits, c.phase = .store hits ∧ entry = encodeHits hits := by
  unfold cacheAfter at h
  split at h
  · rename_i hits live shadow hp
    have hwritten : ∀ (written : Bool) (entries : Assoc String Json),
        (if written then entries.insert (c.key registry) (encodeHits hits) else entries).lookup
          key = some entry → entries.lookup key = some entry ∨ entry = encodeHits hits := by
      intro written entries hlookup
      split_ifs at hlookup
      · rw [lookup_insert_eq] at hlookup
        split_ifs at hlookup with hkey
        · exact .inr (Option.some.inj hlookup).symm
        · exact .inl hlookup
      · exact .inl hlookup
    rcases h with hlive | hshadow
    · rcases hwritten live cache.live hlive with hold | hnew
      · exact .inl (.inl hold)
      · exact .inr ⟨hits, hp, hnew⟩
    · rcases hwritten shadow cache.shadow hshadow with hold | hnew
      · exact .inl (.inr hold)
      · exact .inr ⟨hits, hp, hnew⟩
  · exact .inl h

theorem named_cacheAfter (h : Inv w) {id : ℕ} {c : Call} (hc : w.calls.lookup id = some c)
    {answer : Answer} {key : String} {entry : Json}
    (hentry : (cacheAfter registry w.cache c answer).live.lookup key = some entry ∨
      (cacheAfter registry w.cache c answer).shadow.lookup key = some entry) :
    Entry.Named w.named entry := by
  rcases lookup_cacheAfter hentry with (hlive | hshadow) | ⟨hits, hp, rfl⟩
  · exact h.live key entry hlive
  · exact h.shadow key entry hshadow
  · have hphase := h.calls id c hc
    rw [hp] at hphase
    intro decoded hdecoded
    rw [decodeHits_encodeHits] at hdecoded
    obtain rfl := Option.some.inj hdecoded
    exact hphase

theorem inv_initial : Inv .initial where
  live _ _ hentry := by cases hentry
  shadow _ _ hentry := by cases hentry
  calls _ _ hc := by cases hc

theorem inv_step (h : Inv w) (e : Event) : Inv (step registry w e) := by
  cases e with
  | search id caller query limit mode localSearch =>
    unfold step
    dsimp only
    split
    · exact h
    · refine ⟨h.live, h.shadow, fun id' c' hc' => ?_⟩
      rw [lookup_insert_eq] at hc'
      split_ifs at hc' with hid
      · obtain rfl := Option.some.inj hc'
        cases mode with
        | localOnly => exact fun hit hhit _ => .inl ⟨hit, hhit, rfl⟩
        | proxy | hybrid => trivial
      · exact h.calls id' c' hc'
  | answer id answer =>
    unfold step
    dsimp only
    split
    · exact h
    · rename_i c hc
      have hsub := named_subset w.named c answer
      refine ⟨?_, ?_, ?_⟩
      · intro key entry hentry
        exact (named_cacheAfter h hc (.inl hentry)).mono hsub
      · intro key entry hentry
        exact (named_cacheAfter h hc (.inr hentry)).mono hsub
      · intro id' c' hc'
        rw [lookup_insert_eq] at hc'
        split_ifs at hc' with hid
        · obtain rfl := Option.some.inj hc'
          exact clean_nextPhase h hc answer
        · exact (h.calls id' c' hc').mono hsub

theorem inv_run (events : List Event) : Inv (run registry events) :=
  Lib.Runs.run_keeps_of_forall (fun _ => True) Inv (fun _ e h _ => inv_step h e) World.initial
    events inv_initial fun _ _ => trivial

end Steps

section TwoRuns
variable {registry} (me : String)

/-- Events that differ, if at all, in what another caller may see. -/
inductive Event.Alike : Event → Event → Prop
  | same (e : Event) : Event.Alike e e
  | other (id : ℕ) (caller query : String) (limit : ℕ) (mode : SearchMode)
      (localSearch localSearch' : LocalSearch) (h : caller ≠ me) :
      Event.Alike (.search id caller query limit mode localSearch)
        (.search id caller query limit mode localSearch')

/-- Phases that differ, if at all, in an answer on its way to the caller. -/
inductive Phase.Alike : Phase → Phase → Prop
  | same (phase : Phase) : Phase.Alike phase phase
  | finish (hits hits' : List SearchHit) (freshness freshness' : Freshness) :
      Phase.Alike (.finish hits freshness) (.finish hits' freshness')
  | done (response response' : Except String SearchResults) :
      Phase.Alike (.done response) (.done response')

/-- Calls that differ, if at all, in another caller's half. -/
structure Call.Alike (c d : Call) : Prop where
  mine : c.caller = me → c = d
  caller : c.caller = d.caller
  query : c.query = d.query
  limit : c.limit = d.limit
  mode : c.mode = d.mode
  phase : Phase.Alike c.phase d.phase

structure World.Alike (w v : World) : Prop where
  cache : w.cache = v.cache
  named : w.named = v.named
  calls : ∀ id, Option.Rel (Call.Alike me) (w.calls.lookup id) (v.calls.lookup id)

theorem World.Alike.refl (w : World) : World.Alike me w w where
  cache := rfl
  named := rfl
  calls id := by
    cases w.calls.lookup id with
    | none => exact .none
    | some c => exact .some ⟨fun _ => rfl, rfl, rfl, rfl, rfl, .same _⟩

variable {me}

/-- An answer takes two such calls to phases of one kind: only the last two kinds hold
anything of a caller's half. -/
theorem alike_nextPhase (cache : CacheStore) {c d : Call} (h : Call.Alike me c d)
    (answer : Answer) :
    Phase.Alike (nextPhase registry cache c answer) (nextPhase registry cache d answer) := by
  obtain ⟨-, -, hquery, hlimit, -, hphase⟩ := h
  have hkey : c.key registry = d.key registry := by
    unfold Call.key
    rw [hquery, hlimit]
  unfold nextPhase
  rw [← hkey]
  generalize c.phase = p at hphase
  generalize d.phase = q at hphase
  cases hphase with
  | same =>
    cases p with
    | lookup =>
      cases answer with
      | cacheRead available =>
        dsimp only
        split
        · exact .finish _ _ _ _
        · exact .same _
      | _ => exact .same _
    | stale =>
      cases answer with
      | staleRead servesStale available =>
        dsimp only
        split
        · exact .finish _ _ _ _
        · exact .same _
      | _ => exact .same _
    | store hits =>
      cases answer with
      | stored live shadow => exact .finish _ _ _ _
      | _ => exact .same _
    | held =>
      cases answer with
      | held listPackages => exact .finish _ _ _ _
      | _ => exact .same _
    | finish hits freshness =>
      cases answer with
      | blocked contains => exact .done _ _
      | _ => exact .same _
    | client =>
      cases answer with
      | _ => exact .same _
    | upstream =>
      cases answer with
      | upstream found =>
        cases found with
        | _ => exact .same _
      | _ => exact .same _
    | done => exact .same _
  | finish hits hits' freshness freshness' =>
    cases answer with
    | blocked contains => exact .done _ _
    | _ => exact .finish _ _ _ _
  | done response response' => exact .done _ _

theorem alike_cacheAfter (cache : CacheStore) {c d : Call} (h : Call.Alike me c d)
    (answer : Answer) : cacheAfter registry cache c answer = cacheAfter registry cache d answer := by
  have hkey : c.key registry = d.key registry := by
    unfold Call.key
    rw [h.query, h.limit]
  have hphase := h.phase
  unfold cacheAfter
  rw [← hkey]
  generalize c.phase = p at hphase
  generalize d.phase = q at hphase
  cases hphase with
  | same => rfl
  | finish | done => rfl

theorem alike_namedAfter (named : List String) {c d : Call} (h : Call.Alike me c d)
    (answer : Answer) : namedAfter named c answer = namedAfter named d answer := by
  have hphase := h.phase
  unfold namedAfter
  generalize c.phase = p at hphase
  generalize d.phase = q at hphase
  cases hphase with
  | same => rfl
  | finish | done => rfl

theorem alike_answered (cache : CacheStore) {c d : Call} (h : Call.Alike me c d)
    (answer : Answer) :
    Call.Alike me { c with phase := nextPhase registry cache c answer }
      { d with phase := nextPhase registry cache d answer } where
  mine hme := by rw [h.mine hme]
  caller := h.caller
  query := h.query
  limit := h.limit
  mode := h.mode
  phase := alike_nextPhase cache h answer

theorem rel_insert {calls calls' : Assoc ℕ Call}
    (h : ∀ id, Option.Rel (Call.Alike me) (calls.lookup id) (calls'.lookup id)) (id : ℕ)
    {c d : Call} (hcd : Call.Alike me c d) :
    ∀ id', Option.Rel (Call.Alike me) ((calls.insert id c).lookup id')
      ((calls'.insert id d).lookup id') := by
  intro id'
  rw [lookup_insert_eq, lookup_insert_eq]
  split_ifs
  · exact .some hcd
  · exact h id'

theorem alike_started (id : ℕ) {caller query : String} {limit : ℕ} {mode : SearchMode}
    {localSearch localSearch' : LocalSearch} (h : caller = me → localSearch = localSearch')
    {w v : World} (hwv : World.Alike me w v) :
    World.Alike me (step registry w (.search id caller query limit mode localSearch))
      (step registry v (.search id caller query limit mode localSearch')) := by
  have hid := hwv.calls id
  unfold step
  dsimp only
  cases hw : w.calls.lookup id with
  | some c =>
    rw [hw] at hid
    cases hv : v.calls.lookup id with
    | some d => exact hwv
    | none =>
      rw [hv] at hid
      cases hid
  | none =>
    rw [hw] at hid
    cases hv : v.calls.lookup id with
    | some d =>
      rw [hv] at hid
      cases hid
    | none =>
      refine ⟨hwv.cache, hwv.named, rel_insert hwv.calls id ⟨?_, rfl, rfl, rfl, rfl, ?_⟩⟩
      · intro hme
        rw [h hme]
      · cases mode with
        | localOnly => exact .finish _ _ _ _
        | proxy | hybrid => exact .same _

theorem alike_step (w v : World) (e f : Event) (hwv : World.Alike me w v)
    (hef : Event.Alike me e f) : World.Alike me (step registry w e) (step registry v f) := by
  cases hef with
  | other id caller query limit mode localSearch localSearch' hne =>
    exact alike_started id (fun hme => absurd hme hne) hwv
  | same =>
    cases e with
    | search id caller query limit mode localSearch => exact alike_started id (fun _ => rfl) hwv
    | answer id answer =>
      have hid := hwv.calls id
      unfold step
      dsimp only
      cases hw : w.calls.lookup id with
      | none =>
        rw [hw] at hid
        cases hv : v.calls.lookup id with
        | none => exact hwv
        | some d =>
          rw [hv] at hid
          cases hid
      | some c =>
        rw [hw] at hid
        cases hv : v.calls.lookup id with
        | none =>
          rw [hv] at hid
          cases hid
        | some d =>
          rw [hv] at hid
          obtain ⟨hcd⟩ := hid
          dsimp only
          rw [← hwv.cache, ← hwv.named]
          exact ⟨alike_cacheAfter _ hcd _, alike_namedAfter _ hcd _,
            rel_insert hwv.calls id (alike_answered _ hcd _)⟩

theorem alike_run {events events' : List Event} (h : List.Forall₂ (Event.Alike me) events events') :
    World.Alike me (run registry events) (run registry events') :=
  Lib.Runs.run_relates (World.Alike me) (Event.Alike me)
    (fun w v e f hwv hef => alike_step w v e f hwv hef) World.initial World.initial
    (World.Alike.refl me _) h

end TwoRuns

theorem call_of_response {w : World} {id : ℕ} {response : Except String SearchResults}
    (h : w.response id = some response) :
    ∃ c, w.calls.lookup id = some c ∧ c.phase = .done response := by
  unfold World.response at h
  split at h
  · rename_i caller query limit mode localSearch response' hc
    obtain rfl := Option.some.inj h
    exact ⟨_, hc, rfl⟩
  · cases h

/-- A response names what is published here only where its caller may see it or the
upstream has named it, and it does not depend on what other callers may see. -/
theorem no_private_name_leaks :
    (∀ (events : List Event) (id : ℕ) (c : Call) (results : SearchResults),
      (run registry events).calls.lookup id = some c →
      (run registry events).response id = some (.ok results) →
      ∀ hit ∈ results.hits, hit.name ∈ c.localSearch.allNames →
        (∃ l ∈ c.localSearch.hits, l.name = hit.name) ∨
          hit.name ∈ (run registry events).named) ∧
    ∀ (me : String) (events events' : List Event),
      List.Forall₂ (Event.Alike me) events events' →
      ∀ (id : ℕ) (c : Call), (run registry events).calls.lookup id = some c → c.caller = me →
        (run registry events').response id = (run registry events).response id := by
  constructor
  · intro events id c results hc hresponse
    obtain ⟨c', hc', hphase⟩ := call_of_response hresponse
    obtain rfl : c = c' := Option.some.inj (hc.symm.trans hc')
    have hclean := (inv_run events).calls id c hc
    rw [hphase] at hclean
    exact hclean
  · intro me events events' halike id c hc hme
    have hrun : World.Alike me (run registry events) (run registry events') := alike_run halike
    have hid := hrun.calls id
    unfold World.response
    rw [hc] at hid ⊢
    cases hc' : (run registry events').calls.lookup id with
    | none =>
      rw [hc'] at hid
      cases hid
    | some d =>
      rw [hc'] at hid
      obtain ⟨hcd⟩ := hid
      rw [hcd.mine hme]

/-- The published name that only the member may see. -/
def memberSearch : LocalSearch := ⟨[⟨"secret", "1.0.0", none⟩], ["secret"]⟩

def guestSearch : LocalSearch := ⟨[], ["secret"]⟩

/-- A member's search asks the upstream, and a guest's same search finds it cached. -/
def sharedHistory (localSearch : LocalSearch) : List Event :=
  [.search 0 "member" "s" 10 .hybrid localSearch, .answer 0 (.cacheRead true),
    .answer 0 (.client true), .answer 0 (.upstream (.ok [⟨"serde", "1.0.1", none⟩])),
    .answer 0 (.stored true true), .answer 0 (.blocked fun _ _ => false),
    .search 1 "guest" "s" 10 .hybrid guestSearch, .answer 1 (.cacheRead true),
    .answer 1 (.blocked fun _ _ => false)]

theorem alike_sharedHistory (localSearch localSearch' : LocalSearch) :
    List.Forall₂ (Event.Alike "guest") (sharedHistory localSearch)
      (sharedHistory localSearch') := by
  have hsame : ∀ events : List Event, List.Forall₂ (Event.Alike "guest") events events := by
    intro events
    induction events with
    | nil => exact .nil
    | cons e rest ih => exact .cons (.same e) ih
  exact .cons (.other _ _ _ _ _ _ _ (by decide)) (hsame _)

theorem a_guest_is_not_told :
    (run "cargo" (sharedHistory memberSearch)).response 0 =
        some (.ok ⟨[⟨"serde", "1.0.1", none⟩, ⟨"secret", "1.0.0", none⟩], 2, .fresh⟩) ∧
      (run "cargo" (sharedHistory memberSearch)).response 1 =
        some (.ok ⟨[⟨"serde", "1.0.1", none⟩], 1, .cached⟩) ∧
      (run "cargo" (sharedHistory ⟨[], []⟩)).response 1 =
        (run "cargo" (sharedHistory memberSearch)).response 1 ∧
      ((∃ l ∈ memberSearch.hits, l.name = "secret") ∨
        "secret" ∈ (run "cargo" (sharedHistory memberSearch)).named) := by
  have hmember : (run "cargo" (sharedHistory memberSearch)).response 0 =
      some (.ok ⟨[⟨"serde", "1.0.1", none⟩, ⟨"secret", "1.0.0", none⟩], 2, .fresh⟩) := by
    decide +kernel
  obtain ⟨hnames, hsame⟩ := no_private_name_leaks "cargo"
  refine ⟨hmember, by decide +kernel, ?_, ?_⟩
  · exact hsame "guest" (sharedHistory memberSearch) (sharedHistory ⟨[], []⟩)
      (alike_sharedHistory memberSearch ⟨[], []⟩) 1
      ⟨"guest", "s", 10, .hybrid, guestSearch,
        .done (.ok ⟨[⟨"serde", "1.0.1", none⟩], 1, .cached⟩)⟩ rfl rfl
  · exact hnames (sharedHistory memberSearch) 0
      ⟨"member", "s", 10, .hybrid, memberSearch,
        .done (.ok ⟨[⟨"serde", "1.0.1", none⟩, ⟨"secret", "1.0.0", none⟩], 2, .fresh⟩)⟩
      ⟨[⟨"serde", "1.0.1", none⟩, ⟨"secret", "1.0.0", none⟩], 2, .fresh⟩ rfl hmember
      ⟨"secret", "1.0.0", none⟩ (by decide) (by decide)

end BatleHub.Search
