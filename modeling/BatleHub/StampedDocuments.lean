import BatleHub.DocumentTraffic

/-!
What keeps an answer from the cache fresh. A write settles at the generation at
which its row change is made and its last invalidation done. A document stamped `g`
is to hold every write that settled at `g` or before; a request that starts after a
write returned loads a generation no smaller than the one the write settled at.
Here is the invariant and the requests' side of it.
-/
namespace BatleHub.StampedDocuments

open DocumentCaches DocumentTraffic Lib.AssocMap

/-- No request was answered from the cache with a body older than a write that
had returned before the request started. -/
def NoStaleAnswer (s : World) : Prop :=
  ∀ r reader body, s.readers.lookup r = some reader → reader.phase = .hit body →
    ∀ w ∈ reader.seen, w ∈ body

/-- A document of the registry carries generation `g`: it is cached, or it is
built and not yet put. -/
inductive Stamped (s : World) (registry : String) (g : ℕ) (body : List ℕ) : Prop where
  | cached (document : Document) (digest : Digest) (storedAt : ℕ)
      (h : s.cache.entries.lookup (documentKey registry document digest) =
        some ⟨body, g, storedAt⟩)
  | built (r : ℕ) (reader : Reader) (h : s.readers.lookup r = some reader)
      (hregistry : reader.registry = registry) (hphase : reader.phase = .built g body)

/-- A row change that no invalidation follows is made while no document of the
current generation is cached or about to be. -/
def ChangesUnseen (s : World) : Event → Prop
  | .call w .changed =>
    ∀ write c rest, s.writes.lookup w = some write → write.rest = c :: rest →
      c = write.op.effect → Call.invalidateDocuments ∉ rest →
      ∀ g body, Stamped s write.registry g body → g ≠ generation s.cache write.registry
  | _ => True

/-- The write settled at generation `k`. -/
def SettledAt (s : World) (registry : String) (w k : ℕ) : Prop :=
  ∃ write, s.writes.lookup w = some write ∧ write.registry = registry ∧ write.settledAt = some k

/-- A body stamped `g` is not from the future and holds every write that settled
by then. -/
def Covers (s : World) (registry : String) (g : ℕ) (body : List ℕ) : Prop :=
  g ≤ generation s.cache registry ∧ ∀ w k, SettledAt s registry w k → k ≤ g → w ∈ body

def ReaderOk (s : World) (reader : Reader) : Prop :=
  match reader.phase with
  | .started => ∀ w ∈ reader.seen, ∃ k, SettledAt s reader.registry w k
  | .generationRead g =>
    g ≤ generation s.cache reader.registry ∧
      ∀ w ∈ reader.seen, ∃ k, SettledAt s reader.registry w k
  | .currentLoaded g current =>
    g ≤ generation s.cache reader.registry ∧
      ∀ w ∈ reader.seen, ∃ k, SettledAt s reader.registry w k ∧ k ≤ current
  | .hit body => ∀ w ∈ reader.seen, w ∈ body
  | .missed g => g ≤ generation s.cache reader.registry
  | .built _ _ => True
  | .answered => True

structure Inv (s : World) : Prop where
  known : ∀ w ∈ s.rows, ∃ write, s.writes.lookup w = some write
  calls : ∀ w write, s.writes.lookup w = some write → write.failed = false →
    ∀ c ∈ write.rest, c ∈ write.op.calls
  settled : ∀ registry w k, SettledAt s registry w k → k ≤ generation s.cache registry ∧ w ∈ s.rows
  unsettled : ∀ w write, s.writes.lookup w = some write → write.failed = false → w ∈ s.rows →
    write.settledAt = none → Call.invalidateDocuments ∈ write.rest
  stamped : ∀ registry g body, Stamped s registry g body → Covers s registry g body
  readers : ∀ r reader, s.readers.lookup r = some reader → ReaderOk s reader

/-- What every step does to what readers rely on: generations grow, and what has
settled stays settled. -/
structure Grows (s s' : World) : Prop where
  generation : ∀ registry, generation s.cache registry ≤ generation s'.cache registry
  settled : ∀ registry w k, SettledAt s registry w k → SettledAt s' registry w k

theorem inv_initial : Inv World.initial := by
  refine ⟨by simp [World.initial], ?_, ?_, ?_, ?_, ?_⟩
  · intro w write hw
    simp [World.initial] at hw
  · intro registry w k hex
    obtain ⟨write, hw, -⟩ := hex
    simp [World.initial] at hw
  · intro w write hw
    simp [World.initial] at hw
  · intro registry g body hcase
    rcases hcase with ⟨document, digest, storedAt, h⟩ | ⟨r, reader, h, -, -⟩
    · simp [World.initial] at h
    · simp [World.initial] at h
  · intro r reader hr
    simp [World.initial] at hr

theorem readerOk_mono {s s' : World} (h : Grows s s') (reader : Reader)
    (hok : ReaderOk s reader) : ReaderOk s' reader := by
  have hgen := h.generation reader.registry
  unfold ReaderOk at hok ⊢
  cases hphase : reader.phase with
  | started =>
    simp only [hphase] at hok ⊢
    intro w hw
    obtain ⟨k, hk⟩ := hok w hw
    exact ⟨k, h.settled _ w k hk⟩
  | generationRead g =>
    simp only [hphase] at hok ⊢
    refine ⟨hok.1.trans hgen, fun w hw => ?_⟩
    obtain ⟨k, hk⟩ := hok.2 w hw
    exact ⟨k, h.settled _ w k hk⟩
  | currentLoaded g current =>
    simp only [hphase] at hok ⊢
    refine ⟨hok.1.trans hgen, fun w hw => ?_⟩
    obtain ⟨k, hk, hle⟩ := hok.2 w hw
    exact ⟨k, h.settled _ w k hk, hle⟩
  | hit body => simpa only [hphase] using hok
  | missed g =>
    simp only [hphase] at hok ⊢
    exact hok.trans hgen
  | built g body => trivial
  | answered => trivial

/-- A reader moves to a phase that is right for it. -/
theorem inv_setReader {s : World} (h : Inv s) (r : ℕ) (reader : Reader)
    (hok : ReaderOk s reader)
    (hbuilt : ∀ g body, reader.phase = .built g body → Covers s reader.registry g body) :
    Inv { s with readers := s.readers.insert r reader } := by
  refine ⟨h.known, h.calls, h.settled, h.unsettled, ?_, ?_⟩
  · intro registry g body hcase
    rcases hcase with ⟨document, digest, storedAt, hc⟩ | ⟨r', reader', hr, rfl, hphase⟩
    · exact h.stamped registry g body (.cached document digest storedAt hc)
    · dsimp only at hr
      rw [lookup_insert_eq] at hr
      split at hr
      · obtain rfl := Option.some.inj hr
        exact hbuilt g body hphase
      · exact h.stamped _ g body (.built r' reader' hr rfl hphase)
  · intro r' reader' hr
    dsimp only at hr
    rw [lookup_insert_eq] at hr
    split at hr
    · obtain rfl := Option.some.inj hr
      exact hok
    · exact h.readers r' reader' hr

/-- Whatever order puts land in, each leaves a body that covers its stamp. -/
theorem inv_put {s : World} (h : Inv s) (reader : Reader) (g : ℕ) (body : List ℕ) (now : ℕ)
    (hcovers : Covers s reader.registry g body) :
    Inv { s with cache := put s.cache reader.key body g now } := by
  refine ⟨h.known, h.calls, h.settled, h.unsettled, ?_, h.readers⟩
  intro registry g' body' hcase
  rcases hcase with ⟨document, digest, storedAt, hc⟩ | ⟨r, reader', hr, hreg, hphase⟩
  · rcases lookup_put s.cache hc with ⟨hkey, hentry⟩ | hold
    · have hreg : registry = reader.registry := documentKey_registry hkey
      obtain ⟨rfl, rfl, -⟩ := Entry.mk.inj hentry
      rw [hreg]
      exact hcovers
    · exact h.stamped registry g' body' (.cached document digest storedAt hold)
  · exact h.stamped registry g' body' (.built r reader' hr hreg hphase)

theorem inv_evict {s : World} (h : Inv s) (key : String) : Inv (step s (.evict key)) := by
  refine ⟨h.known, h.calls, h.settled, h.unsettled, ?_, h.readers⟩
  intro registry g body hcase
  rcases hcase with ⟨document, digest, storedAt, hc⟩ | ⟨r, reader, hr, hreg, hphase⟩
  · simp only [step] at hc
    rw [lookup_erase_eq] at hc
    split at hc
    · simp at hc
    · exact h.stamped registry g body (.cached document digest storedAt hc)
  · exact h.stamped registry g body (.built r reader hr hreg hphase)

theorem inv_advance {s : World} (h : Inv s) (r now : ℕ) : Inv (step s (.advance r now)) := by
  simp only [step]
  cases hr : s.readers.lookup r with
  | none => exact h
  | some reader =>
    have hok := h.readers r reader hr
    dsimp only
    unfold advanceReader
    unfold ReaderOk at hok
    cases hphase : reader.phase with
    | started =>
      simp only [hphase] at hok
      exact inv_setReader h r _ ⟨Nat.le_refl _, hok⟩ (by simp)
    | generationRead g =>
      simp only [hphase] at hok
      refine inv_setReader h r _ ⟨hok.1, fun w hw => ?_⟩ (by simp)
      obtain ⟨k, hk⟩ := hok.2 w hw
      exact ⟨k, hk, (h.settled _ w k hk).1⟩
    | currentLoaded g current =>
      simp only [hphase] at hok
      dsimp only
      cases hget : getAt s.cache.entries current now reader.key with
      | some body =>
        obtain ⟨entry, hentry, rfl, rfl⟩ := getAt_eq_some hget
        have hcovers := h.stamped reader.registry entry.generation entry.body
          (.cached reader.document reader.digest entry.storedAt hentry)
        refine inv_setReader h r _ (fun w hw => ?_) (by simp)
        obtain ⟨k, hk, hle⟩ := hok.2 w hw
        exact hcovers.2 w k hk hle
      | none => exact inv_setReader h r _ hok.1 (by simp)
    | hit body => exact h
    | missed g =>
      simp only [hphase] at hok
      refine inv_setReader h r _ trivial ?_
      intro g' body hb
      obtain ⟨rfl, rfl⟩ := Phase.built.inj hb
      exact ⟨hok, fun w k hk _ => (h.settled _ w k hk).2⟩
    | built g body =>
      have hcovers := h.stamped reader.registry g body (.built r reader hr rfl hphase)
      exact inv_setReader (inv_put h reader g body now hcovers) r _ trivial (by simp)
    | answered => exact h

/-- A request starts: what returned before it has settled. -/
theorem inv_request {s : World} (h : Inv s) (r : ℕ) (registry : String) (document : Document)
    (digest : Digest) : Inv (step s (.request r registry document digest)) := by
  simp only [step]
  cases hr : s.readers.lookup r with
  | some reader => exact h
  | none =>
    refine inv_setReader h r _ ?_ (by simp)
    intro w hw
    obtain ⟨hrows, hret⟩ := List.mem_filter.mp hw
    obtain ⟨write, hwrite, hret⟩ := (Option.any_eq_true _ _).mp hret
    simp only [Write.returnedOk, Bool.and_eq_true, decide_eq_true_eq, List.isEmpty_iff,
      Bool.not_eq_true'] at hret
    obtain ⟨hreg, hdone, hfailed⟩ := hret
    cases hsettled : write.settledAt with
    | some k => exact ⟨k, write, hwrite, hreg, hsettled⟩
    | none =>
      have hleft := h.unsettled w write hwrite hfailed hrows hsettled
      rw [hdone] at hleft
      exact absurd hleft (by simp)

end BatleHub.StampedDocuments
