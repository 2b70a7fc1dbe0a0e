import BatleHub.DroppedBytes
import BatleHub.Lib.Runs

/-!
Runs of interleaved publishes and deletes. Uncontested, they leave every published
row over its own bytes and take nothing another publish returned `Ok` for; two
publishes that share a reservation do neither.
-/
namespace BatleHub.PublishRuns

open LocalPackages InMemoryRegistry PublishProtocol PublishOwnership DroppedBytes
open Lib.AssocMap Lib.Runs

variable {sha256Hex : List UInt8 → String}

section Steps
variable {env : TextEnv} {s : World sha256Hex}

section InFlight
variable {t : ℕ} {p : Publish sha256Hex} (h : Inv env s) (hp : s.publishes.lookup t = some p)
  (hfly : p.phase.inFlight = true)

include h hp hfly

/-- A publish in flight moves on, and changes nothing. -/
theorem inv_move (phase : PublishPhase) (hphase : PhaseOk env s { p with phase := phase }) :
    Inv env (s.setPublish t p phase) := by
  refine inv_own h t p phase ⟨hfly, hp, ?_, rfl, ?_, ?_, ?_, ?_, ?_, ?_⟩
  · exact fun u q hq => lookup_setPublish hq
  · exact fun _ _ => rfl
  · exact fun _ _ => rfl
  · exact fun r hr hdel => h.marked _ r hr hdel
  · exact ownRow_of_inFlight hfly (h.phases t p hp)
  · exact id
  · exact hphase

theorem inv_store (hrow : PendingRow env s p) :
    Inv env (({ s with blobs := s.blobs.insert p.storageKey p.req.artifact } :
      World sha256Hex).setPublish t p .stored) := by
  have hstored : (s.blobs.insert p.storageKey p.req.artifact).lookup p.storageKey =
      some p.req.artifact := by simp
  refine inv_own h t p .stored ⟨hfly, hp, ?_, rfl, ?_, ?_, ?_, ?_, ?_, ?_⟩
  · exact fun u q hq => lookup_setPublish hq
  · exact fun _ _ => rfl
  · intro key hkey
    simp [World.setPublish, hkey]
  · exact fun r hr hdel => h.marked _ r hr hdel
  · intro r hr hstatus
    exact ⟨(ownRow_of_inFlight hfly (h.phases t p hp) r hr hstatus).1, hstored⟩
  · exact id
  · exact ⟨hrow, hstored⟩

theorem inv_commit (hrow : PendingRow env s p)
    (hbytes : s.blobs.lookup p.storageKey = some p.req.artifact) :
    Inv env (({ s with
      store := commitPublish env p.req.registry p.req.name p.req.version s.store } :
      World sha256Hex).setPublish t p .committed) := by
  obtain ⟨r, hr, hpending, hpkg⟩ := hrow
  have hrows := fun key => lookup_modify (p.recordKey env) key
    (fun r : Record => { r with status := .published }) s.store
  have hcommitted : (commitPublish env p.req.registry p.req.name p.req.version
      s.store).lookup (p.recordKey env) = some { r with status := .published } := by
    have hlookup := hrows (p.recordKey env)
    rw [if_pos rfl, hr, Option.map_some] at hlookup
    exact hlookup
  refine inv_own h t p .committed ⟨hfly, hp, ?_, rfl, ?_, ?_, ?_, ?_, ?_, ?_⟩
  · exact fun u q hq => lookup_setPublish hq
  · intro key hkey
    exact (hrows key).trans (if_neg hkey)
  · exact fun _ _ => rfl
  · intro r' hr' hdel
    obtain rfl := Option.some.inj (hcommitted.symm.trans hr')
    exact absurd hdel (by simp)
  · intro r' hr' _
    obtain rfl := Option.some.inj (hcommitted.symm.trans hr')
    exact ⟨hpkg, hbytes⟩
  · intro hdeleted
    obtain ⟨r', hr', hdel⟩ := hdeleted
    obtain rfl := Option.some.inj (hr.symm.trans hr')
    rw [hpending] at hdel
    exact absurd hdel (by decide)
  · exact .inr ⟨_, hcommitted, rfl, hpkg, hbytes⟩

/-- The rollback of the row leaves a tombstone alone. -/
theorem inv_undoRow (bytes : Bool) :
    Inv env (({ s with
      store := removeVersion env p.req.registry p.req.name p.req.version s.store } :
      World sha256Hex).setPublish t p (if bytes then .undoBytes else .returned false)) := by
  have hrows := lookup_removeVersion env p.req.registry p.req.name p.req.version s.store
  have hleft : ∀ r, (removeVersion env p.req.registry p.req.name p.req.version
      s.store).lookup (p.recordKey env) = some r →
      s.store.lookup (p.recordKey env) = some r ∧ r.status = .deleted := by
    intro r hr
    rw [hrows, if_pos (by rfl)] at hr
    obtain ⟨hr, hdel⟩ := Option.filter_eq_some_iff.mp hr
    exact ⟨hr, of_decide_eq_true hdel⟩
  refine inv_own h t p (if bytes then .undoBytes else .returned false)
    ⟨hfly, hp, ?_, rfl, ?_, ?_, ?_, ?_, ?_, ?_⟩
  · exact fun u q hq => lookup_setPublish hq
  · intro key hkey
    exact (hrows key).trans (if_neg hkey)
  · exact fun _ _ => rfl
  · intro r hr hdel
    exact h.marked _ r (hleft r hr).1 hdel
  · intro r hr hpublished
    rw [(hleft r hr).2] at hpublished
    exact absurd hpublished (by decide)
  · intro hdeleted
    obtain ⟨r, hr, hdel⟩ := hdeleted
    refine ⟨r, (hrows _).trans ?_, hdel⟩
    rw [if_pos (by rfl), hr, Option.filter_some, if_pos (by simpa using hdel)]
  · cases bytes with
    | false => trivial
    | true => exact fun r hr => (hleft r hr).2

theorem inv_undoBytes (ok : Bool)
    (hspent : ∀ r, s.store.lookup (p.recordKey env) = some r → r.status = .deleted) :
    Inv env (({ s with blobs := if ok then s.blobs.erase p.storageKey else s.blobs } :
      World sha256Hex).setPublish t p (.returned false)) := by
  refine inv_own h t p (.returned false) ⟨hfly, hp, ?_, rfl, ?_, ?_, ?_, ?_, ?_, ?_⟩
  · exact fun u q hq => lookup_setPublish hq
  · exact fun _ _ => rfl
  · intro key hkey
    simp only [World.setPublish]
    split
    · rw [lookup_erase_eq, if_neg hkey]
    · rfl
  · exact fun r hr hdel => h.marked _ r hr hdel
  · intro r hr hpublished
    rw [hspent r hr] at hpublished
    exact absurd hpublished (by decide)
  · exact id
  · trivial

end InFlight

/-- Every call of a publish, phase by phase. -/
theorem inv_publishStep (h : Inv env s) {t : ℕ} {p : Publish sha256Hex} {now : DateTime}
    {ok : Bool} (hp : s.publishes.lookup t = some p)
    (hfree : p.phase = .ready → ok = true → ∀ store, publish env now p.pkg s.store = .ok store →
      FreeFor env s p) : Inv env (publishStep env s t p now ok) := by
  have hok := h.phases t p hp
  have hown : p.phase.inFlight = true → OwnRow env s p :=
    fun hfly => ownRow_of_inFlight hfly hok
  unfold publishStep
  unfold PhaseOk at hok
  cases hphase : p.phase with
  | ready =>
    cases ok with
    | false => exact inv_idle h t p _ rfl (by simp)
    | true =>
      dsimp only
      rw [if_pos rfl]
      cases hpub : publish env now p.pkg s.store with
      | error e => exact inv_idle h t p _ rfl (by simp)
      | ok store => exact inv_reserve h hpub (hfree hphase rfl store hpub)
  | reserved =>
    have hfly : p.phase.inFlight = true := by rw [hphase]; rfl
    simp only [hphase] at hok
    cases ok with
    | false => exact inv_move h hp hfly (.undoRow false) (hown hfly)
    | true => exact inv_store h hp hfly hok
  | stored =>
    have hfly : p.phase.inFlight = true := by rw [hphase]; rfl
    simp only [hphase] at hok
    cases ok with
    | false => exact inv_move h hp hfly (.undoRow true) (hown hfly)
    | true => exact inv_commit h hp hfly hok.1 hok.2
  | committed =>
    have hfly : p.phase.inFlight = true := by rw [hphase]; rfl
    simp only [hphase] at hok
    cases ok with
    | false => exact inv_move h hp hfly (.undoRow true) (hown hfly)
    | true => exact inv_move h hp hfly (.returned true) hok
  | undoRow bytes =>
    have hfly : p.phase.inFlight = true := by rw [hphase]; rfl
    exact inv_undoRow h hp hfly bytes
  | undoBytes =>
    have hfly : p.phase.inFlight = true := by rw [hphase]; rfl
    simp only [hphase] at hok
    exact inv_undoBytes h hp hfly ok hok
  | returned ok => exact h
  | dropped => exact h

theorem inv_deleteStep {kindOf : String → Option RegistryKind} (h : Inv env s) {t : ℕ}
    {d : Delete} {now : DateTime} {ok : Bool} (hd : s.deletes.lookup t = some d)
    (hown : d.phase = .ready → ok = true →
      (tombstoneVersion env now d.registry d.name d.version d.deletedBy s.store).1 = true →
      DropsOwn env kindOf s d) : Inv env (deleteStep env kindOf s t d now ok) := by
  unfold deleteStep
  cases hphase : d.phase with
  | ready =>
    dsimp only
    cases ok with
    | false => exact inv_setDelete h (by simp)
    | true =>
      rw [if_pos rfl]
      cases htomb : (tombstoneVersion env now d.registry d.name d.version d.deletedBy
          s.store).1 with
      | true =>
        rw [if_pos rfl]
        exact inv_tombstone h htomb (hown hphase rfl htomb)
      | false =>
        have hsame : (tombstoneVersion env now d.registry d.name d.version d.deletedBy
            s.store).2 = s.store := by
          unfold tombstoneVersion at htomb ⊢
          cases hpub : published? env d.registry d.name d.version s.store with
          | none => rfl
          | some r => simp [hpub] at htomb
        rw [hsame]
        exact inv_setDelete h (by simp)
  | dropping rest =>
    cases rest with
    | nil => exact inv_setDelete h (by simp)
    | cons x rest =>
      dsimp only
      have hdrop : Inv env { s with blobs := if ok then x.apply s.blobs else s.blobs } := by
        cases ok with
        | false => exact h
        | true => exact inv_drop h hd hphase
      refine inv_setDelete hdrop ?_
      intro rest' hrest'
      obtain rfl := DeletePhase.dropping.inj hrest'
      exact ⟨d, x :: rest, hd, hphase, fun y hy => List.mem_cons_of_mem x hy⟩
  | returned tombstoned => exact h
  | dropped => exact h

theorem inv_step (kindOf : String → Option RegistryKind) (s : World sha256Hex)
    (e : Event sha256Hex) (h : Inv env s) (hfree : Uncontested env kindOf s e) :
    Inv env (step env kindOf s e) := by
  cases e with
  | startPublish t req publishedAt visibility =>
    simp only [step]
    cases s.publishes.lookup t with
    | some p => exact h
    | none => exact inv_idle h t _ .ready rfl (by simp)
  | publishStep t now ok =>
    simp only [step]
    cases hp : s.publishes.lookup t with
    | none => exact h
    | some p =>
      refine inv_publishStep h hp ?_
      intro hready heq
      subst heq
      exact hfree p hp hready
  | dropPublish t =>
    simp only [step]
    cases hp : s.publishes.lookup t with
    | none => exact h
    | some p =>
      dsimp only
      split
      · exact h
      · exact inv_idle h t p .dropped rfl (by simp)
  | startDelete t registry name version deletedBy =>
    simp only [step]
    cases s.deletes.lookup t with
    | some d => exact h
    | none => exact inv_setDelete h (by simp)
  | deleteStep t now ok =>
    simp only [step]
    cases hd : s.deletes.lookup t with
    | none => exact h
    | some d =>
      refine inv_deleteStep h hd ?_
      intro hready heq
      subst heq
      exact hfree d hd hready
  | dropDelete t =>
    simp only [step]
    cases s.deletes.lookup t with
    | none => exact h
    | some d =>
      dsimp only
      split
      · exact h
      · exact inv_setDelete h (by simp)

end Steps

/-- In every run in which publishes reserve and deletes tombstone uncontested, a
published row carries the checksum of its bytes, and what a publish returned `Ok`
for stays as it was published until a delete takes it. -/
theorem run_publish_safe (env : TextEnv) (kindOf : String → Option RegistryKind)
    (events : List (Event sha256Hex))
    (hfree : Guarded (step env kindOf) (Uncontested env kindOf) World.initial events) :
    ChecksumsMatch (run (step env kindOf) World.initial events) ∧
      OkVersionsKept env (run (step env kindOf) World.initial events) := by
  have hinv := run_keeps (Uncontested env kindOf) (Inv env)
    (fun s e h hg => inv_step kindOf s e h hg) World.initial events (inv_initial env) hfree
  refine ⟨hinv.bytes, fun t p hp hok => ?_⟩
  have hkept := hinv.phases t p hp
  simpa only [PhaseOk, hok] using hkept

section Runs

/-- SHA-256 on the two artifacts used below. -/
def sampleSha256Hex : List UInt8 → String
  | [1] => "4bf5122f344554c53bde2ebb8cd2b7e3d1600ad631c385a5d7cce23c7785459a"
  | [2] => "dbc1b4c900ffe48d575b5da5c638040125f65db0fe3e24494b76ea986457d986"
  | _ => ""

/-- A request to publish left-pad@1.0.0 with the given bytes. -/
def leftPadWith (artifact : List UInt8) : PublishRequest sampleSha256Hex where
  registry := "npm"
  name := "left-pad"
  version := "1.0.0"
  artifact := artifact
  checksum := sampleSha256Hex artifact
  indexMetadata := Json.emptyObject
  unlisted := false
  publisherId := some "alice"
  signatureBytes := none
  signatureType := none
  computed := rfl

def npmOnly (registry : String) : Option RegistryKind :=
  if registry = "npm" then some .npm else none

def runNpm (events : List (Event sampleSha256Hex)) : World sampleSha256Hex :=
  run (step asciiEnv npmOnly) World.initial events

def start (t : ℕ) (artifact : List UInt8) : Event sampleSha256Hex :=
  .startPublish t (leftPadWith artifact) 0 .isPublic

def leftPadKey : String × String := recordKey asciiEnv "npm" "left-pad" "1.0.0"

def secondWith (artifact : List UInt8) : PublishRequest sampleSha256Hex :=
  { leftPadWith artifact with version := "2.0.0", computed := rfl }

def secondKey : String × String := recordKey asciiEnv "npm" "left-pad" "2.0.0"

/-- Two versions are published side by side; then the first is deleted while a third publish,
of the second version once more, is refused and a fourth, of another package, goes through. -/
def publishedApart : List (Event sampleSha256Hex) :=
  [start 0 [1], .startPublish 1 (secondWith [2]) 0 .isPublic, .publishStep 0 0 true,
    .publishStep 1 0 true, .publishStep 0 0 true, .publishStep 1 0 true, .publishStep 0 0 true,
    .publishStep 1 0 true, .publishStep 0 0 true, .publishStep 1 0 true,
    .startDelete 2 "npm" "left-pad" "1.0.0" none, .deleteStep 2 5 true,
    .startPublish 3 (secondWith [1]) 6 .isPublic, .publishStep 3 6 true,
    .startPublish 4 { leftPadWith [1] with name := "right-pad", computed := rfl } 6 .isPublic,
    .publishStep 4 6 true, .deleteStep 2 5 true, .publishStep 4 6 true, .deleteStep 2 5 true,
    .publishStep 4 6 true, .deleteStep 2 5 true, .deleteStep 2 5 true, .publishStep 4 6 true]

theorem publishedApart_safe :
    ((runNpm publishedApart).publishes.entries.map fun e => (e.1, e.2.phase)) =
        [(4, .returned true), (3, .returned false), (1, .returned true), (0, .returned true)] ∧
      ((runNpm publishedApart).store.lookup leftPadKey).map (·.status) = some .deleted ∧
      ((runNpm publishedApart).store.lookup secondKey).map (·.status) = some .published ∧
      ChecksumsMatch (runNpm publishedApart) ∧
      OkVersionsKept asciiEnv (runNpm publishedApart) :=
  ⟨by decide +kernel, by decide +kernel, by decide +kernel,
    run_publish_safe asciiEnv npmOnly publishedApart (by decide +kernel)⟩

/-- Both publishes reserve; the first stores last and commits. -/
def sharedReservation : List (Event sampleSha256Hex) :=
  [start 0 [1], start 1 [2], .publishStep 0 0 true, .publishStep 1 0 true,
    .publishStep 1 0 true, .publishStep 0 0 true, .publishStep 0 0 true]

/-- Both publishes reserve; the second returns `Ok`, and then the first fails its
SBOM and rolls back. -/
def rollbackOfAnother : List (Event sampleSha256Hex) :=
  [start 0 [1], start 1 [2], .publishStep 0 0 true, .publishStep 0 0 true,
    .publishStep 1 0 true, .publishStep 1 0 true, .publishStep 1 0 true, .publishStep 1 0 true,
    .publishStep 0 0 true, .publishStep 0 0 false, .publishStep 0 0 true, .publishStep 0 0 true]

/-- Two publishes that share a reservation: the row of the one is published over the
bytes of the other, and the rollback of the one removes what the other returned
`Ok` for. -/
theorem shared_reservation_breaks :
    ¬ ChecksumsMatch (runNpm sharedReservation) ∧
      ((runNpm rollbackOfAnother).publishes.lookup 0).map (·.phase) = some (.returned false) ∧
      ((runNpm rollbackOfAnother).publishes.lookup 1).map (·.phase) = some (.returned true) ∧
      ((runNpm (rollbackOfAnother.take 8)).store.lookup leftPadKey).map (·.status) =
        some .published ∧
      ¬ OkVersionsKept asciiEnv (runNpm rollbackOfAnother) := by
  refine ⟨?_, by decide, by decide, by decide, ?_⟩
  · intro h
    obtain ⟨bytes, hbytes, hsum⟩ := h leftPadKey _ rfl rfl
    obtain rfl := Option.some.inj (show some _ = some bytes from hbytes)
    exact absurd hsum (by decide)
  · intro h
    rcases h 1 _ rfl rfl with ⟨r, hr, -⟩ | ⟨r, hr, -⟩
    · exact absurd (show none = some r from hr) (by simp)
    · exact absurd (show none = some r from hr) (by simp)

end Runs

end BatleHub.PublishRuns
