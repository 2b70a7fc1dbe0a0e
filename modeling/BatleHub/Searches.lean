import BatleHub.Lib.AssocMap
import BatleHub.Lib.Runs
import BatleHub.LocalPackages
import BatleHub.Vocabulary

/-!
Search in one registry (`services/search.rs`). A call asks the cache, then the
upstream, then the stale cache and the packages held here; what is published locally
joins the answer at the end. Calls of any callers run at once over one cache, and each
goes on with what the port it waits for answers.
-/
namespace BatleHub.Search

open LocalPackages (Json)
open Lib.AssocMap

section Hits

structure SearchHit where
  name : String
  version : String
  description : Option String
  deriving DecidableEq, Repr

structure UpstreamPackage where
  name : String
  latestVersion : String
  description : Option String
  deriving DecidableEq, Repr

def SearchHit.ofUpstream (p : UpstreamPackage) : SearchHit :=
  ⟨p.name, p.latestVersion, p.description⟩

/-- What the local registry contributes: the hits that this caller may see, and every
published name. -/
structure LocalSearch where
  hits : List SearchHit
  allNames : List String
  deriving DecidableEq, Repr

inductive SearchMode where
  | localOnly
  | proxy
  | hybrid
  deriving DecidableEq, Repr

inductive Freshness where
  | cached
  | fresh
  | stale
  deriving DecidableEq, Repr

structure SearchResults where
  hits : List SearchHit
  total : ℕ
  freshness : Freshness
  deriving DecidableEq, Repr

/-- The upstream's hits first, and a local one whose name is not there yet. -/
def mergeLocal (hits : List SearchHit) (locals : List SearchHit) : List SearchHit :=
  locals.foldl
    (fun hits l => if hits.any fun h => decide (h.name = l.name) then hits else hits ++ [l]) hits

theorem mem_mergeLocal {hits locals : List SearchHit} {hit : SearchHit}
    (h : hit ∈ mergeLocal hits locals) : hit ∈ hits ∨ hit ∈ locals := by
  unfold mergeLocal at h
  induction locals generalizing hits with
  | nil => exact .inl h
  | cons l rest ih =>
    rw [List.foldl_cons] at h
    rcases ih h with hhits | hrest
    · split at hhits
      · exact .inl hhits
      · rcases List.mem_append.mp hhits with hhits | hl
        · exact .inl hhits
        · exact .inr (by simp [List.mem_singleton.mp hl])
    · exact .inr (List.mem_cons_of_mem l hrest)

end Hits

section Encoding

def SearchHit.toJson (hit : SearchHit) : Json :=
  .object [("name", .string hit.name), ("version", .string hit.version),
    ("description", match hit.description with
      | some text => .string text
      | none => .null)]

/-- An optional text, from its field or from none. -/
def optionOfJson : Option Json → Option (Option String)
  | none => some none
  | some .null => some none
  | some (.string text) => some (some text)
  | some _ => none

/-- The derived reader, which takes the fields by name or all three in their order. -/
def SearchHit.ofJson : Json → Option SearchHit
  | .array [.string name, .string version, description] =>
    (optionOfJson (some description)).map fun description => ⟨name, version, description⟩
  | .object fields =>
    match fields.lookup "name", fields.lookup "version" with
    | some (.string name), some (.string version) =>
      (optionOfJson (fields.lookup "description")).map fun description =>
        ⟨name, version, description⟩
    | _, _ => none
  | _ => none

def encodeHits (hits : List SearchHit) : Json :=
  .object [("search_hits", .array (hits.map SearchHit.toJson))]

def decodeHits (value : Json) : Option (List SearchHit) :=
  match value.get "search_hits" with
  | some (.array items) => items.mapM SearchHit.ofJson
  | _ => none

theorem SearchHit.ofJson_toJson (hit : SearchHit) : SearchHit.ofJson hit.toJson = some hit := by
  obtain ⟨name, version, description⟩ := hit
  cases description with
  | none => rfl
  | some text => rfl

/-- What was written to the cache is what is read there. -/
theorem decodeHits_encodeHits (hits : List SearchHit) :
    decodeHits (encodeHits hits) = some hits := by
  show (hits.map SearchHit.toJson).mapM SearchHit.ofJson = some hits
  induction hits with
  | nil => rfl
  | cons hit rest ih =>
    rw [List.map_cons, List.mapM_cons, SearchHit.ofJson_toJson, ih]
    rfl

end Encoding

section Ports

/-- The metadata cache, under the keys of searches. A store that keeps stale shadows
writes them beside the live entries; one that does not reads both from one entry. -/
structure CacheStore where
  live : Assoc String Json
  shadow : Assoc String Json

def CacheStore.empty : CacheStore := ⟨∅, ∅⟩

/-- A read. Whether the store answers, and with an entry that is still there, is the
store's matter. -/
def CacheStore.get (cache : CacheStore) (key : String) (available : Bool) : Option Json :=
  if available then cache.live.lookup key else none

def CacheStore.getStale (cache : CacheStore) (key : String) (available : Bool) : Option Json :=
  if available then cache.shadow.lookup key else none

/-- A write, of the entries it gets to. -/
def CacheStore.set (cache : CacheStore) (key : String) (extra : Json) (live shadow : Bool) :
    CacheStore :=
  ⟨if live then cache.live.insert key extra else cache.live,
    if shadow then cache.shadow.insert key extra else cache.shadow⟩

/-- The filter of a listing, by what a search sets in it. -/
structure PackageFilter where
  registry : String
  nameContains : Option String
  limit : ℕ
  deriving DecidableEq, Repr

end Ports

section Calls

/-- Where a call stands: the port it waits for. -/
inductive Phase where
  | lookup
  | client
  | upstream
  | store (hits : List SearchHit)
  | stale
  | held
  | finish (hits : List SearchHit) (freshness : Freshness)
  | done (response : Except String SearchResults)

/-- A call of `search`, by whom, with its limit clamped. -/
structure Call where
  caller : String
  query : String
  limit : ℕ
  mode : SearchMode
  localSearch : LocalSearch
  phase : Phase

/-- What a port answers. -/
inductive Answer where
  | cacheRead (available : Bool)
  | client (known : Bool)
  | upstream (found : Except CoreError (List UpstreamPackage))
  | stored (live shadow : Bool)
  | staleRead (servesStale available : Bool)
  | held (listPackages : PackageFilter → Option (List PackageId))
  | blocked (contains : String → String → Bool)

def clampLimit (limit : ℕ) : ℕ := min (max limit 1) 250

variable (registry : String)

def searchKey (limit : ℕ) (query : String) : String :=
  "search:v2:" ++ registry ++ ":" ++ toString limit ++ ":" ++ query

def Call.key (c : Call) : String := searchKey registry c.limit c.query

/-- The hits with the caller's local half, where the mode has one. -/
def Call.merged (c : Call) (hits : List SearchHit) : List SearchHit :=
  if c.mode = .hybrid then mergeLocal hits c.localSearch.hits else hits

def cachedHits (cache : CacheStore) (key : String) (available : Bool) : Option (List SearchHit) :=
  (cache.get key available).bind decodeHits

def staleHits (cache : CacheStore) (key : String) (available : Bool) : Option (List SearchHit) :=
  (cache.getStale key available).bind decodeHits

def heldPackages (listPackages : PackageFilter → Option (List PackageId)) (query : String)
    (limit : ℕ) : List SearchHit :=
  let nameContains := if query = "" then none else some query
  match listPackages ⟨registry, nameContains, limit⟩ with
  | some rows => rows.map fun p => ⟨p.name, p.version, none⟩
  | none => []

def finish (contains : String → String → Bool) (hits : List SearchHit) (freshness : Freshness) :
    SearchResults :=
  let kept := hits.filter fun h => !contains h.name h.version
  ⟨kept, kept.length, freshness⟩

/-- Where a call starts. -/
def firstPhase (mode : SearchMode) (localSearch : LocalSearch) : Phase :=
  match mode with
  | .localOnly => .finish localSearch.hits .fresh
  | _ => .lookup

/-- Where a call stands once its port has answered. -/
def nextPhase (cache : CacheStore) (c : Call) (answer : Answer) : Phase :=
  match c.phase, answer with
  | .lookup, .cacheRead available =>
    match cachedHits cache (c.key registry) available with
    | some hits => .finish (c.merged hits) .cached
    | none => .client
  | .client, .client known =>
    if known then .upstream else .done (.error ("Unknown registry: " ++ registry))
  | .upstream, .upstream (.ok found) => .store (found.map SearchHit.ofUpstream)
  | .upstream, .upstream (.error _) => .stale
  | .store hits, .stored _ _ => .finish (c.merged hits) .fresh
  | .stale, .staleRead servesStale available =>
    match (if servesStale then staleHits cache (c.key registry) available else none) with
    | some hits => .finish (c.merged hits) .stale
    | none => .held
  | .held, .held listPackages =>
    let hits := (heldPackages registry listPackages c.query c.limit).filter
      fun h => !c.localSearch.allNames.contains h.name
    .finish (c.merged hits) .stale
  | .finish hits freshness, .blocked contains => .done (.ok (finish contains hits freshness))
  | phase, _ => phase

/-- The cache after the answer: the upstream's hits are written as they came. -/
def cacheAfter (cache : CacheStore) (c : Call) (answer : Answer) : CacheStore :=
  match c.phase, answer with
  | .store hits, .stored live shadow => cache.set (c.key registry) (encodeHits hits) live shadow
  | _, _ => cache

/-- The names that upstream answers have named. -/
def namedAfter (named : List String) (c : Call) (answer : Answer) : List String :=
  match c.phase, answer with
  | .upstream, .upstream (.ok found) => named ++ found.map UpstreamPackage.name
  | _, _ => named

/-- The registry's searches: the cache they share and the calls. `named` is what the
upstream has named so far; no code reads it. -/
structure World where
  cache : CacheStore
  calls : Assoc ℕ Call
  named : List String

def World.initial : World := ⟨.empty, ∅, []⟩

inductive Event where
  | search (id : ℕ) (caller query : String) (limit : ℕ) (mode : SearchMode)
      (localSearch : LocalSearch)
  | answer (id : ℕ) (answer : Answer)

def step (w : World) : Event → World
  | .search id caller query limit mode localSearch =>
    match w.calls.lookup id with
    | some _ => w
    | none =>
      { w with
        calls := w.calls.insert id
          ⟨caller, query, clampLimit limit, mode, localSearch, firstPhase mode localSearch⟩ }
  | .answer id answer =>
    match w.calls.lookup id with
    | none => w
    | some c =>
      ⟨cacheAfter registry w.cache c answer,
        w.calls.insert id { c with phase := nextPhase registry w.cache c answer },
        namedAfter w.named c answer⟩

def run (events : List Event) : World := Lib.Runs.run (step registry) .initial events

/-- The response of a call that is over. -/
def World.response (w : World) (id : ℕ) : Option (Except String SearchResults) :=
  match w.calls.lookup id with
  | some ⟨_, _, _, _, _, .done response⟩ => some response
  | _ => none

end Calls

end BatleHub.Search
