import BatleHub.Lib.AssocMap
import BatleHub.Lib.Texts
import Mathlib.Data.List.MinMax
import Mathlib.Data.Nat.Notation

/-!
The cache of whole-registry documents (`document_cache.rs`). A write to a
registry bumps the registry's generation and leaves the entries alone; an entry
is served while it carries the current generation and is young enough. A key
starts with the name of its registry, and no two registries share one.
-/
namespace BatleHub.DocumentCaches

open Lib.AssocMap Lib.Texts

/-- How long an entry may live, in nanoseconds. -/
def ttl : ℕ := 300 * 10 ^ 9

def maxEntries : ℕ := 64

variable {β : Type*}

structure Entry (β : Type*) where
  body : β
  generation : ℕ
  storedAt : ℕ
  deriving DecidableEq, Repr

/-- The entries under their keys, and the write counter of each registry. -/
structure DocumentCache (β : Type*) where
  entries : Assoc String (Entry β)
  generations : Assoc String ℕ

/-- A registry nothing was written to is at generation zero. -/
def generation (cache : DocumentCache β) (registry : String) : ℕ :=
  (cache.generations.lookup registry).getD 0

def invalidateRegistry (cache : DocumentCache β) (registry : String) : DocumentCache β :=
  { cache with
    generations := cache.generations.insert registry (generation cache registry + 1) }

/-- The lookup half of `get`; `current` was loaded before it. -/
def getAt (entries : Assoc String (Entry β)) (current now : ℕ) (key : String) : Option β :=
  (entries.lookup key).bind fun entry =>
    if entry.generation ≠ current ∨ now - entry.storedAt > ttl then none else some entry.body

def oldest (entries : Assoc String (Entry β)) : Option String :=
  (entries.entries.argmin fun e => e.2.storedAt).map fun e => e.1

/-- Make room for `key`. -/
def evictFor (key : String) (entries : Assoc String (Entry β)) : Assoc String (Entry β) :=
  if entries.entries.length ≥ maxEntries ∧ (entries.lookup key).isNone then
    match oldest entries with
    | some old => entries.erase old
    | none => entries
  else entries

def put (cache : DocumentCache β) (key : String) (body : β) (generation now : ℕ) :
    DocumentCache β :=
  { cache with entries := (evictFor key cache.entries).insert key ⟨body, generation, now⟩ }

/-- The documents that are cached: the two RubyGems indexes. -/
inductive Document where
  | versions
  | names
  deriving DecidableEq, Repr

def Document.asStr : Document → String
  | .versions => "versions"
  | .names => "names"

/-- The digest of an audience is written in hexadecimal. -/
structure Digest where
  text : String
  plain : ∀ c ∈ text.toList, c ≠ '/'

def documentKey (registry : String) (document : Document) (digest : Digest) : String :=
  registry ++ "/" ++ document.asStr ++ ":audience=" ++ digest.text

section Cache
variable (cache : DocumentCache β) (registry : String)

@[simp]
theorem generation_invalidateRegistry (other : String) :
    generation (invalidateRegistry cache registry) other =
      if other = registry then generation cache registry + 1 else generation cache other := by
  by_cases h : other = registry
  · simp [generation, invalidateRegistry, h]
  · simp [generation, invalidateRegistry, h]

theorem generation_le_invalidateRegistry (other : String) :
    generation cache other ≤ generation (invalidateRegistry cache registry) other := by
  rw [generation_invalidateRegistry]
  split
  · rename_i h
    subst h
    omega
  · exact Nat.le_refl _

theorem getAt_eq_some {entries : Assoc String (Entry β)} {current now : ℕ} {key : String}
    {body : β} (h : getAt entries current now key = some body) :
    ∃ entry, entries.lookup key = some entry ∧ entry.generation = current ∧
      entry.body = body := by
  obtain ⟨entry, hentry, hbody⟩ := Option.bind_eq_some_iff.mp h
  split at hbody
  · simp at hbody
  · rename_i hvalid
    rw [not_or, not_not] at hvalid
    exact ⟨entry, hentry, hvalid.1, Option.some.inj hbody⟩

/-- An eviction only takes entries away. -/
theorem lookup_evictFor {key other : String} {entries : Assoc String (Entry β)}
    {entry : Entry β} (h : (evictFor key entries).lookup other = some entry) :
    entries.lookup other = some entry := by
  unfold evictFor at h
  split at h
  · split at h
    · rw [lookup_erase_eq] at h
      split at h
      · simp at h
      · exact h
    · exact h
  · exact h

/-- After a put there is the new entry, and nothing that was not there. -/
theorem lookup_put {key other : String} {body : β} {g now : ℕ} {entry : Entry β}
    (h : (put cache key body g now).entries.lookup other = some entry) :
    (other = key ∧ entry = ⟨body, g, now⟩) ∨ cache.entries.lookup other = some entry := by
  unfold put at h
  dsimp only at h
  rw [lookup_insert_eq] at h
  split at h
  · rename_i hk
    exact .inl ⟨hk, (Option.some.inj h).symm⟩
  · exact .inr (lookup_evictFor h)

end Cache

theorem documentKey_registry {r₁ r₂ : String} {d₁ d₂ : Document} {x₁ x₂ : Digest}
    (h : documentKey r₁ d₁ x₁ = documentKey r₂ d₂ x₂) : r₁ = r₂ := by
  have hlist := congrArg String.toList h
  simp only [documentKey, String.toList_append, List.append_assoc] at hlist
  have hplain : ∀ (d : Document) (x : Digest),
      '/' ∉ d.asStr.toList ++ (":audience=".toList ++ x.text.toList) := by
    intro d x hmem
    rcases List.mem_append.mp hmem with hd | hrest
    · cases d <;> simp [Document.asStr] at hd
    · rcases List.mem_append.mp hrest with hl | hx
      · simp at hl
      · exact x.plain _ hx rfl
  exact String.toList_injective
    (append_cons_inj_of_notMem (hplain d₁ x₁) (hplain d₂ x₂) (by simpa using hlist))

end BatleHub.DocumentCaches
