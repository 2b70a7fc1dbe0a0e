import BatleHub.MetadataCache
import Mathlib.Algebra.Order.Group.Unbundled.Int

/-!
How old the cached metadata and documents are that a registry returns. A document is
never older than the TTL, nor is metadata that came from an upstream call of its own. An
entry that was read from a cached document is as old as that document and still lives a
TTL of its own: it is too old once the document would have expired.
-/
namespace BatleHub.MetadataCache

open LocalPackages (DateTime)
open Lib.AssocMap

variable {Document : Type} (T : ℕ)
  {resolveMetadataFromDocument : PackageId → Document → Option PackageMetadata}

/-- A registry with a metadata TTL that serves nothing stale. -/
def withTtl : RegistryPolicy := ⟨some T, false⟩

section Entries

/-- An entry that was written when the upstream answered. -/
def FreshlyWritten {α : Type} (e : Entry α) : Prop := e.expiresAt = some (e.obtainedAt + T)

/-- A metadata entry, by what it was made from. A document in the cache was at most a TTL
old. -/
def Dated (e : Entry PackageMetadata) : Prop :=
  match e.source with
  | .upstream => FreshlyWritten T e
  | .document expiresAt =>
    expiresAt = some (e.obtainedAt + T) ∧
      ∃ exp, e.expiresAt = some exp ∧ exp ≤ e.obtainedAt + T + T

structure Inv (w : World Document) : Prop where
  metas : ∀ key e, w.metas.lookup key = some e → Dated T e
  documents : ∀ key e, w.documents.lookup key = some e → FreshlyWritten T e

/-- What was returned without an upstream call is at most so old. -/
def Answer.Within (bound : ℕ) (a : Answer) : Prop :=
  a.upstreamCalled = false → a.now - a.obtainedAt ≤ bound

def AllWithin (bound : ℕ) (w : World Document) : Prop := ∀ a ∈ w.answers, a.Within bound

/-- No resolution is answered by an entry that outlived the document it was read from. -/
def NotOutlived (w : World Document) : Event Document → Prop
  | .resolve now pkg ports =>
    ∀ entry, metaHit w now pkg ports = some entry →
      ∀ exp, entry.source = .document (some exp) → now ≤ exp
  | .readDocument .. => True

/-- The event is no resolution that a metadata entry answers. -/
def NoHit (w : World Document) (e : Event Document) : Prop :=
  ∀ now pkg ports, e = .resolve now pkg ports → metaHit w now pkg ports = none

theorem NoHit.notOutlived {w : World Document} {e : Event Document} (h : NoHit w e) :
    NotOutlived w e := by
  cases e with
  | resolve now pkg ports =>
    intro entry hentry
    rw [h now pkg ports rfl] at hentry
    cases hentry
  | readDocument => trivial

theorem allWithin_append {bound : ℕ} {w w' : World Document} {a : Answer}
    (h : w'.answers = w.answers ++ [a]) :
    AllWithin bound w' ↔ AllWithin bound w ∧ a.Within bound := by
  unfold AllWithin
  rw [h, List.forall_mem_append, List.forall_mem_singleton]

theorem allWithin_congr {bound : ℕ} {w w' : World Document} (h : w'.answers = w.answers) :
    AllWithin bound w' ↔ AllWithin bound w := by
  unfold AllWithin
  rw [h]

variable {T} {w : World Document}

theorem Inv.document_age (h : Inv T w) {key : String} {now : DateTime} {held : Bool}
    {e : Entry Document} (he : getEntry w.documents key now held = some e) :
    e.expiresAt = some (e.obtainedAt + T) ∧ now ≤ e.obtainedAt + T := by
  obtain ⟨hlookup, hlive⟩ := getEntry_eq_some he
  have hexp := h.documents key e hlookup
  exact ⟨hexp, hlive _ hexp⟩

/-- A metadata entry that is returned is at most a TTL old, just when the document it was
read from, if any, would still live. -/
theorem Inv.metadata_age (h : Inv T w) {now : DateTime} {pkg : PackageId} {ports : ResolvePorts}
    {e : Entry PackageMetadata} (he : metaHit w now pkg ports = some e) :
    now - e.obtainedAt ≤ T ↔ ∀ exp, e.source = .document (some exp) → now ≤ exp := by
  rw [sub_le_iff_le_add']
  unfold metaHit at he
  split at he
  · obtain ⟨hlookup, hlive⟩ := getEntry_eq_some he
    have hdated := h.metas _ e hlookup
    unfold Dated at hdated
    cases hsource : e.source with
    | upstream =>
      rw [hsource] at hdated
      have hle := hlive _ hdated
      exact iff_of_true hle fun exp hexp => by cases hexp
    | document expiresAt =>
      rw [hsource] at hdated
      obtain ⟨rfl, -⟩ := hdated
      constructor
      · intro hage exp hexp
        have hsame : e.obtainedAt + T = exp := Option.some.inj (Source.document.inj hexp)
        exact hsame ▸ hage
      · intro hle
        exact hle _ rfl
  · cases he

/-- It is never more than two TTLs old. -/
theorem Inv.metadata_age_le_twice (h : Inv T w) {now : DateTime} {pkg : PackageId}
    {ports : ResolvePorts} {e : Entry PackageMetadata} (he : metaHit w now pkg ports = some e) :
    now ≤ e.obtainedAt + T + T := by
  unfold metaHit at he
  split at he
  · obtain ⟨hlookup, hlive⟩ := getEntry_eq_some he
    have hdated := h.metas _ e hlookup
    unfold Dated at hdated
    split at hdated
    · have hle := hlive _ hdated
      exact hle.trans (le_add_of_nonneg_right (Int.natCast_nonneg T))
    · obtain ⟨-, exp, hexp, hle⟩ := hdated
      exact (hlive exp hexp).trans hle
  · cases he

end Entries

section Steps
variable {T : ℕ} {w : World Document}

/-- A resolution that is produced is written or it is not. -/
theorem finishResolve_eq_ok {policy : RegistryPolicy} {now : DateTime} {pkg : PackageId}
    {m : PackageMetadata} {obtainedAt : DateTime} {source : Source}
    {cacheSet : Except CoreError Unit} {w' : World Document}
    (h : finishResolve policy w now pkg m obtainedAt source cacheSet = .ok w') :
    w' = w ∨ w' = { w with
      metas := setEntry w.metas (proxyMetaKey pkg) m now policy.metadataTtl obtainedAt source } := by
  unfold finishResolve at h
  split_ifs at h with hstore
  · exact .inl (Except.ok.inj h).symm
  · split at h
    · cases h
    · exact .inr (Except.ok.inj h).symm

theorem Inv.answered (h : Inv T w) (now obtainedAt : DateTime) (upstreamCalled : Bool) :
    Inv T (w.answered now obtainedAt upstreamCalled) := ⟨h.metas, h.documents⟩

/-- What a resolution writes is dated by what it was made from. -/
theorem Inv.produced (h : Inv T w) {now : DateTime} {pkg : PackageId} {m : PackageMetadata}
    {obtainedAt : DateTime} {source : Source} (upstreamCalled : Bool)
    (cacheSet : Except CoreError Unit)
    (hdated : Dated T ⟨m, some (now + T), obtainedAt, source⟩) :
    Inv T (produced (withTtl T) w now pkg m obtainedAt source upstreamCalled cacheSet).2 := by
  unfold MetadataCache.produced
  split
  · rename_i w' hfinish
    apply Inv.answered
    rcases finishResolve_eq_ok hfinish with rfl | rfl
    · exact h
    · refine ⟨fun key e he => ?_, h.documents⟩
      unfold setEntry at he
      rw [lookup_insert_eq] at he
      split_ifs at he with hkey
      · obtain rfl := Option.some.inj he
        exact hdated
      · exact h.metas key e he
  · exact h

theorem inv_resolve (h : Inv T w) (now : DateTime) (pkg : PackageId) (ports : ResolvePorts) :
    Inv T (resolveMetadata (withTtl T) resolveMetadataFromDocument w now pkg ports).2 := by
  unfold resolveMetadata
  split
  · exact h
  · split
    · exact h.answered _ _ _
    · split
      · rename_i m e hdoc
        obtain ⟨e', he', hread⟩ := Option.bind_eq_some_iff.mp hdoc
        obtain ⟨m', -, hpair⟩ := Option.map_eq_some_iff.mp hread
        obtain ⟨rfl, rfl⟩ := Prod.mk.inj hpair
        obtain ⟨hexp, hage⟩ := h.document_age he'
        -- the entry lives a TTL from now, whatever is left of the document's
        refine h.produced false ports.cacheSet ⟨hexp, now + T, rfl, ?_⟩
        exact add_le_add_left hage _
      · split_ifs
        · exact h
        · split
          · exact h.produced true ports.cacheSet rfl
          · exact h

theorem inv_readDocument (h : Inv T w) (now : DateTime) (registry : String) (kind : DocumentKind)
    (name : String) (ports : DocumentPorts Document) :
    Inv T (cachedVersionDocument (withTtl T) w now registry kind name ports).2 := by
  unfold cachedVersionDocument
  dsimp only
  split
  · exact h.answered _ _ _
  · split
    · apply Inv.answered
      split_ifs
      · refine ⟨h.metas, fun key e he => ?_⟩
        unfold setEntry at he
        rw [lookup_insert_eq] at he
        split_ifs at he with hkey
        · obtain rfl := Option.some.inj he
          rfl
        · exact h.documents key e he
      · exact h
    · exact h

theorem inv_step (h : Inv T w) (e : Event Document) :
    Inv T (step (withTtl T) resolveMetadataFromDocument w e) := by
  cases e with
  | resolve now pkg ports => exact inv_resolve h now pkg ports
  | readDocument now registry kind name ports => exact inv_readDocument h now registry kind name ports

theorem answers_produced (policy : RegistryPolicy) (w : World Document) (now : DateTime)
    (pkg : PackageId) (m : PackageMetadata) (obtainedAt : DateTime) (source : Source)
    (upstreamCalled : Bool) (cacheSet : Except CoreError Unit) :
    (produced policy w now pkg m obtainedAt source upstreamCalled cacheSet).2.answers = w.answers ∨
      (produced policy w now pkg m obtainedAt source upstreamCalled cacheSet).2.answers =
        w.answers ++ [⟨now, obtainedAt, upstreamCalled⟩] := by
  unfold MetadataCache.produced
  split
  · rename_i w' hfinish
    right
    rcases finishResolve_eq_ok hfinish with rfl | rfl
    · rfl
    · rfl
  · exact .inl rfl

/-- An answer from a cached document, or one that an upstream call was made for. -/
def OfDocument (w : World Document) (a : Answer) : Prop :=
  a.upstreamCalled = true ∨
    ∃ key held entry, getEntry w.documents key a.now held = some entry ∧
      a.obtainedAt = entry.obtainedAt

/-- What one step returns: a metadata entry, or nothing, or an answer of the other kinds. -/
theorem answers_step (T : ℕ)
    (resolveMetadataFromDocument : PackageId → Document → Option PackageMetadata)
    (w : World Document) (e : Event Document) :
    (∃ now pkg ports entry, e = .resolve now pkg ports ∧
        metaHit w now pkg ports = some entry ∧
        (step (withTtl T) resolveMetadataFromDocument w e).answers =
          w.answers ++ [⟨now, entry.obtainedAt, false⟩]) ∨
      NoHit w e ∧
        ((step (withTtl T) resolveMetadataFromDocument w e).answers = w.answers ∨
          ∃ a, OfDocument w a ∧
            (step (withTtl T) resolveMetadataFromDocument w e).answers = w.answers ++ [a]) := by
  cases e with
  | resolve now pkg ports =>
    cases hit : metaHit w now pkg ports with
    | some entry =>
      left
      refine ⟨now, pkg, ports, entry, rfl, hit, ?_⟩
      unfold step resolveMetadata
      dsimp only
      split
      · rename_i e' hget
        rw [metaHit, hget] at hit
        cases hit
      · rw [hit]
        rfl
    | none =>
      right
      constructor
      · intro now' pkg' ports' heq
        obtain ⟨rfl, rfl, rfl⟩ := Event.resolve.inj heq
        exact hit
      · unfold step resolveMetadata
        dsimp only
        split
        · exact .inl rfl
        · rw [hit]
          dsimp only
          split
          · rename_i m entry hdoc
            obtain ⟨entry', hentry, hread⟩ := Option.bind_eq_some_iff.mp hdoc
            obtain ⟨m', -, hpair⟩ := Option.map_eq_some_iff.mp hread
            obtain ⟨rfl, rfl⟩ := Prod.mk.inj hpair
            rcases answers_produced (withTtl T) w now pkg m' entry'.obtainedAt
              (.document entry'.expiresAt) false ports.cacheSet with hsame | hmore
            · exact .inl hsame
            · exact .inr ⟨_, .inr ⟨_, _, entry', hentry, rfl⟩, hmore⟩
          · split_ifs
            · exact .inl rfl
            · split
              · rename_i m hm
                rcases answers_produced (withTtl T) w now pkg m now .upstream true
                  ports.cacheSet with hsame | hmore
                · exact .inl hsame
                · exact .inr ⟨_, .inl rfl, hmore⟩
              · exact .inl rfl
  | readDocument now registry kind name ports =>
    right
    refine ⟨fun _ _ _ heq => absurd heq (by simp), ?_⟩
    unfold step cachedVersionDocument
    dsimp only
    split
    · rename_i entry hentry
      exact .inr ⟨⟨now, entry.obtainedAt, false⟩, .inr ⟨_, _, entry, hentry, rfl⟩, rfl⟩
    · split
      · right
        refine ⟨⟨now, now, true⟩, .inl rfl, ?_⟩
        split_ifs
        · rfl
        · rfl
      · exact .inl rfl

theorem Inv.within_of_document (h : Inv T w) {a : Answer} (ha : OfDocument w a) : a.Within T := by
  intro hcalled
  rcases ha with htrue | ⟨key, held, entry, hentry, hobtained⟩
  · rw [htrue] at hcalled
    cases hcalled
  · rw [hobtained]
    exact sub_le_iff_le_add'.mpr (h.document_age hentry).2

theorem allWithin_step (h : Inv T w) (e : Event Document) :
    AllWithin T (step (withTtl T) resolveMetadataFromDocument w e) ↔
      AllWithin T w ∧ NotOutlived w e := by
  rcases answers_step T resolveMetadataFromDocument w e
    with ⟨now, pkg, ports, entry, rfl, hit, hmore⟩ | ⟨hnohit, hsame | ⟨a, ha, hmore⟩⟩
  · rw [allWithin_append hmore, Answer.Within, forall_prop_of_true rfl, h.metadata_age hit]
    refine and_congr_right fun _ => ⟨fun hlive entry' hentry' => ?_, fun hlive => hlive entry hit⟩
    obtain rfl : entry = entry' := Option.some.inj (hit.symm.trans hentry')
    exact hlive
  · rw [allWithin_congr hsame, and_iff_left hnohit.notOutlived]
  · rw [allWithin_append hmore, and_iff_left (h.within_of_document ha),
      and_iff_left hnohit.notOutlived]

theorem allWithin_twice_step (h : Inv T w) (hall : AllWithin (T + T) w) (e : Event Document) :
    AllWithin (T + T) (step (withTtl T) resolveMetadataFromDocument w e) := by
  rcases answers_step T resolveMetadataFromDocument w e
    with ⟨now, pkg, ports, entry, rfl, hit, hmore⟩ | ⟨-, hsame | ⟨a, ha, hmore⟩⟩
  · refine (allWithin_append hmore).mpr ⟨hall, fun _ => sub_le_iff_le_add'.mpr ?_⟩
    have htwice := h.metadata_age_le_twice hit
    rw [Int.natCast_add, ← Int.add_assoc]
    exact htwice
  · exact (allWithin_congr hsame).mpr hall
  · refine (allWithin_append hmore).mpr ⟨hall, fun hcalled => ?_⟩
    have hage := h.within_of_document ha hcalled
    have hle : (T : ℤ) ≤ ((T + T : ℕ) : ℤ) := Int.ofNat_le.mpr (Nat.le_add_left T T)
    exact hage.trans hle

theorem inv_initial : Inv T (World.initial : World Document) where
  metas _ _ he := by cases he
  documents _ _ he := by cases he

end Steps

/-- In every run, whatever is read from where, nothing is more than two TTLs old. -/
theorem ages_within_two_ttls (T : ℕ)
    (resolveMetadataFromDocument : PackageId → Document → Option PackageMetadata)
    (events : List (Event Document)) :
    AllWithin (T + T) (run (withTtl T) resolveMetadataFromDocument events) := by
  have hstep : ∀ (w : World Document) (e : Event Document), Inv T w ∧ AllWithin (T + T) w →
      True → Inv T (step (withTtl T) resolveMetadataFromDocument w e) ∧
        AllWithin (T + T) (step (withTtl T) resolveMetadataFromDocument w e) :=
    fun _ e h _ => ⟨inv_step h.1 e, allWithin_twice_step h.1 h.2 e⟩
  have hkept := Lib.Runs.run_keeps_of_forall (fun _ => True) _ hstep World.initial events
    ⟨inv_initial, by intro a ha; cases ha⟩ fun _ _ => trivial
  exact hkept.2

/-- Everything returned without an upstream call is at most the TTL old, in exactly the
runs where no resolution is answered by an entry that outlived its document. In the others
it is at most twice as old. -/
theorem ages_within_ttl_iff (T : ℕ)
    (resolveMetadataFromDocument : PackageId → Document → Option PackageMetadata)
    (events : List (Event Document)) :
    ((∀ a ∈ (run (withTtl T) resolveMetadataFromDocument events).answers,
        a.upstreamCalled = false → a.now - a.obtainedAt ≤ T) ↔
      Lib.Runs.Guarded (step (withTtl T) resolveMetadataFromDocument) NotOutlived .initial
        events) ∧
    ∀ a ∈ (run (withTtl T) resolveMetadataFromDocument events).answers,
      a.upstreamCalled = false → a.now - a.obtainedAt ≤ T + T := by
  have hinv : ∀ (w : World Document) (e : Event Document), Inv T w →
      Inv T (step (withTtl T) resolveMetadataFromDocument w e) := fun _ e h => inv_step h e
  have hexact := Lib.Runs.run_keeps_iff NotOutlived (Inv T) (AllWithin T) hinv
    (fun _ e h => allWithin_step h e) World.initial events inv_initial
  rw [and_iff_right (by intro a ha; cases ha)] at hexact
  refine ⟨hexact, fun a ha hcalled => ?_⟩
  rw [← Int.natCast_add]
  exact ages_within_two_ttls T resolveMetadataFromDocument events a ha hcalled

/-- A document that is about to expire is read into a metadata entry, which is returned a
quarter of an hour after the upstream's answer. The TTL is ten minutes. -/
theorem refilled_metadata_is_too_old :
    ¬ ∀ (T : ℕ) (resolveMetadataFromDocument : PackageId → String → Option PackageMetadata)
      (events : List (Event String)),
      ∀ a ∈ (run (withTtl T) resolveMetadataFromDocument events).answers,
        a.upstreamCalled = false → a.now - a.obtainedAt ≤ T := by
  intro h
  have hage := h 600 (fun pkg _ => some ⟨pkg, none⟩)
    [.readDocument 0 "npm1" .versions "left-pad" ⟨true, .ok "1.3.0", true, true⟩,
      .resolve 590 (.new "npm1" "left-pad" "1.3.0")
        ⟨.ok true, true, false, .error (.registry "offline"), .ok false, .ok ()⟩,
      .resolve 900 (.new "npm1" "left-pad" "1.3.0")
        ⟨.ok true, true, false, .error (.registry "offline"), .ok false, .ok ()⟩]
    ⟨900, 0, false⟩ (by decide +kernel) rfl
  exact absurd hage (by decide)

end BatleHub.MetadataCache
