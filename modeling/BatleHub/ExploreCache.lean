import Mathlib.Data.List.Perm.Basic
import BatleHub.LocalPackages
import BatleHub.Lib.AssocMap
import BatleHub.Lib.Texts

/-!
The explore cache of one replica: two maps from query keys to dated entries, each
entry with the registries its query touched. An invalidation clears both maps or
retains the entries of other registries; the shared counters tell the other replicas
what to clear.
-/
namespace BatleHub.ExploreCache

open LocalPackages Lib.AssocMap Lib.Texts

/-- The two maps of the cache. -/
inductive Cache where
  | packages
  | stats
  deriving DecidableEq, Repr

/-- A cached query result. `readAt` is the tick of the database read it comes from; no
code reads it. -/
structure Entry (α : Type) where
  value : α
  registries : List String
  cachedAt : DateTime
  readAt : ℕ
  deriving DecidableEq, Repr

abbrev Entries (α : Type) := Cache → Assoc String (Entry α)

variable {α : Type}

/-- The entry `get_packages` and `get_stats` answer from, within its TTL. -/
def hit (ttl : DateTime) (entries : Entries α) (cache : Cache) (key : String)
    (now : DateTime) : Option (Entry α) :=
  match (entries cache).lookup key with
  | some e => if now - e.cachedAt < ttl then some e else none
  | none => none

/-- `set_packages` and `set_stats`. -/
def set (entries : Entries α) (cache : Cache) (key : String) (e : Entry α) : Entries α :=
  Function.update entries cache ((entries cache).insert key e)

/-- What `invalidate_local` does to one of the maps. -/
def clear (entries : Entries α) (cache : Cache) (registry : Option String) : Entries α :=
  match registry with
  | none => Function.update entries cache ∅
  | some reg =>
    Function.update entries cache
      (retain (fun _ e => !e.registries.any (fun r => r == reg)) (entries cache))

def topicPrefix : String := "explore:"

def topic (registry : Option String) : String := topicPrefix ++ registry.getD "*"

/-- The counters the replicas share, topic by topic. -/
abbrev Counters := Assoc String ℤ

def bump (counters : Counters) (t : String) : Counters :=
  counters.insert t ((counters.lookup t).getD 0 + 1)

/-- The counters a heartbeat reads. -/
def heartbeat (counters : Counters) : Counters :=
  retain (fun t _ => startsWith t topicPrefix) counters

/-- What a topic asks to clear: everything, one registry, or nothing. -/
def topicTarget (t : String) : Option (Option String) :=
  match stripPrefix t topicPrefix with
  | some "*" => some none
  | some registry => some (some registry)
  | none => none

/-- One write of `invalidate_local`: the map it takes and the registry it clears there. -/
structure Drop where
  cache : Cache
  registry : Option String
  deriving DecidableEq, Repr

def invalidateLocal (registry : Option String) : List Drop :=
  [⟨.packages, registry⟩, ⟨.stats, registry⟩]

/-- The writes of `apply_generations` against the counters last seen. The first read only
records them. -/
def dropsOf (seen : Option Counters) (now : List (Σ _ : String, ℤ)) : List Drop :=
  match seen with
  | none => []
  | some previous =>
    now.flatMap fun e =>
      if previous.lookup e.1 = some e.2 then []
      else
        match topicTarget e.1 with
        | some target => invalidateLocal target
        | none => []

def Drop.apply (d : Drop) (entries : Entries α) : Entries α := clear entries d.cache d.registry

/-- The drop takes what touched `registry` out of `cache`. -/
def Drop.Covers (d : Drop) (cache : Cache) (registry : String) : Prop :=
  d.cache = cache ∧ (d.registry = none ∨ d.registry = some registry)

theorem hit_eq_some {ttl : DateTime} {entries : Entries α} {cache : Cache} {key : String}
    {now : DateTime} {e : Entry α} (h : hit ttl entries cache key now = some e) :
    (entries cache).lookup key = some e := by
  unfold hit at h
  cases hlookup : (entries cache).lookup key with
  | none => simp [hlookup] at h
  | some found =>
    simp only [hlookup] at h
    split at h
    · exact h
    · cases h

theorem lookup_set {entries : Entries α} {cache other : Cache} {key found : String}
    {new e : Entry α} (h : (set entries cache key new other).lookup found = some e) :
    (other = cache ∧ e = new) ∨ (entries other).lookup found = some e := by
  unfold set at h
  by_cases hc : other = cache
  · subst hc
    rw [Function.update_self, lookup_insert_eq] at h
    split at h
    · exact .inl ⟨rfl, (Option.some.inj h).symm⟩
    · exact .inr h
  · rw [Function.update_of_ne hc] at h
    exact .inr h

/-- What is left after a clear was there before, and the clear did not cover it. -/
theorem lookup_clear {entries : Entries α} {d : Drop} {other : Cache} {found : String}
    {e : Entry α} (h : (d.apply entries other).lookup found = some e) :
    (entries other).lookup found = some e ∧ ∀ reg ∈ e.registries, ¬ d.Covers other reg := by
  obtain ⟨cache, registry⟩ := d
  unfold Drop.apply clear at h
  by_cases hc : other = cache
  · subst hc
    cases registry with
    | none =>
      simp only [Function.update_self] at h
      simp at h
    | some reg =>
      simp only [Function.update_self, lookup_retain, Option.filter_eq_some_iff] at h
      refine ⟨h.1, ?_⟩
      intro reg' hmem hcovers
      rcases hcovers.2 with hnone | hsome
      · simp at hnone
      · have hreg : reg = reg' := by simpa using hsome
        subst hreg
        have hnot := h.2
        simp only [Bool.not_eq_true', List.any_eq_false, beq_iff_eq] at hnot
        exact hnot reg hmem rfl
  · refine ⟨?_, fun _ _ hcovers => hc hcovers.1.symm⟩
    cases registry with
    | none =>
      simp only at h
      rwa [Function.update_of_ne hc] at h
    | some reg =>
      simp only at h
      rwa [Function.update_of_ne hc] at h

theorem mem_invalidateLocal (cache : Cache) (registry : Option String) :
    ⟨cache, registry⟩ ∈ invalidateLocal registry := by
  cases cache <;> simp [invalidateLocal]

theorem stripPrefix_topic (registry : Option String) :
    stripPrefix (topic registry) topicPrefix = some (registry.getD "*") := by
  rw [stripPrefix_eq_some_iff]
  rfl

/-- The topic of an invalidation asks for a clear that covers its registry. -/
theorem topicTarget_topic (cache : Cache) (registry : String) (target : Option String)
    (htarget : target = none ∨ target = some registry) :
    ∃ cleared, topicTarget (topic target) = some cleared ∧
      Drop.Covers ⟨cache, cleared⟩ cache registry := by
  unfold topicTarget
  rw [stripPrefix_topic]
  rcases htarget with hnone | hsome
  · subst hnone
    exact ⟨none, rfl, rfl, .inl rfl⟩
  · subst hsome
    by_cases hstar : registry = "*"
    · subst hstar
      exact ⟨none, rfl, rfl, .inl rfl⟩
    · refine ⟨some registry, ?_, rfl, .inr rfl⟩
      simp only [Option.getD_some]

/-- A counter that moved since it was last seen is cleared in both maps. -/
theorem exists_covering_drop {previous : Counters} {now : List (Σ _ : String, ℤ)} {g : ℤ}
    (cache : Cache) {registry : String} {target : Option String}
    (htarget : target = none ∨ target = some registry)
    (hmem : ⟨topic target, g⟩ ∈ now) (hmoved : previous.lookup (topic target) ≠ some g) :
    ∃ d ∈ dropsOf (some previous) now, d.Covers cache registry := by
  obtain ⟨cleared, hcleared, hcovers⟩ := topicTarget_topic cache registry target htarget
  refine ⟨⟨cache, cleared⟩, ?_, hcovers⟩
  unfold dropsOf
  rw [List.mem_flatMap]
  refine ⟨⟨topic target, g⟩, hmem, ?_⟩
  simp only [hmoved, if_false, hcleared]
  exact mem_invalidateLocal cache cleared

theorem startsWith_topic (target : Option String) :
    startsWith (topic target) topicPrefix = true := by
  unfold startsWith topic
  rw [String.toList_append]
  simp

end BatleHub.ExploreCache
