import BatleHub.PublishProtocol

/-!
Who owns a record and a storage key. A reservation is a pending row under the
coordinate, and nothing in it says whose it is: a second publish overwrites it, and
from there the two share the row, the storage key and the rollback.

Where a publish has both to itself from its reservation to its return, the row it
reserved is the row it commits, the bytes under its key are its own, and its
rollback takes nothing else. Here is the invariant and the publishes' side of it.
-/
namespace BatleHub.PublishOwnership

open LocalPackages InMemoryRegistry PublishProtocol Lib.AssocMap

variable {sha256Hex : List UInt8 → String}

section Statements
variable (env : TextEnv)

/-- A published row's checksum is that of the bytes under its storage key. -/
def ChecksumsMatch (s : World sha256Hex) : Prop :=
  ∀ key r, s.store.lookup key = some r → r.status = .published →
    ∃ bytes, s.blobs.lookup (storageKeyOf r.pkg) = some bytes ∧ r.pkg.checksum = sha256Hex bytes

/-- The record the publish works on is a tombstone. -/
def Deleted (s : World sha256Hex) (p : Publish sha256Hex) : Prop :=
  ∃ r, s.store.lookup (p.recordKey env) = some r ∧ r.status = .deleted

/-- The version is there as published, row and bytes, unless a delete took it. -/
def Kept (s : World sha256Hex) (p : Publish sha256Hex) : Prop :=
  Deleted env s p ∨
    ∃ r, s.store.lookup (p.recordKey env) = some r ∧ r.status = .published ∧ r.pkg = p.pkg ∧
      s.blobs.lookup p.storageKey = some p.req.artifact

/-- What a publish returned `Ok` for is neither removed nor altered. -/
def OkVersionsKept (s : World sha256Hex) : Prop :=
  ∀ t p, s.publishes.lookup t = some p → p.phase = .returned true → Kept env s p

/-- Nobody else works on the publish's record or storage key. -/
structure FreeFor (s : World sha256Hex) (p : Publish sha256Hex) : Prop where
  publishes : ∀ u q, s.publishes.lookup u = some q → q.phase.inFlight = true →
    q.recordKey env ≠ p.recordKey env ∧ q.storageKey ≠ p.storageKey
  rows : ∀ key r, s.store.lookup key = some r → r.status = .published →
    storageKeyOf r.pkg ≠ p.storageKey
  deletes : ∀ u d rest, s.deletes.lookup u = some d → d.phase = .dropping rest →
    ∀ x ∈ rest, x.hits p.storageKey = false

/-- What the delete goes on to drop belongs to its own record. -/
structure DropsOwn (kindOf : String → Option RegistryKind) (s : World sha256Hex) (d : Delete) :
    Prop where
  rows : ∀ key r, s.store.lookup key = some r → r.status = .published → key ≠ d.recordKey env →
    ∀ x ∈ d.drops kindOf, x.hits (storageKeyOf r.pkg) = false
  publishes : ∀ u q, s.publishes.lookup u = some q → q.phase.inFlight = true →
    q.recordKey env ≠ d.recordKey env → ∀ x ∈ d.drops kindOf, x.hits q.storageKey = false

/-- A publish reserves, and a delete tombstones, uncontested. -/
def Uncontested (kindOf : String → Option RegistryKind) (s : World sha256Hex) :
    Event sha256Hex → Prop
  | .publishStep t now true =>
    ∀ p, s.publishes.lookup t = some p → p.phase = .ready →
      ∀ store, publish env now p.pkg s.store = .ok store → FreeFor env s p
  | .deleteStep t now true =>
    ∀ d, s.deletes.lookup t = some d → d.phase = .ready →
      (tombstoneVersion env now d.registry d.name d.version d.deletedBy s.store).1 = true →
      DropsOwn env kindOf s d
  | _ => True

end Statements

section Deciding
variable (env : TextEnv) (kindOf : String → Option RegistryKind) (s : World sha256Hex)

/-- What the delete has still to drop. -/
def dropsLeft (d : Delete) : List Drop :=
  match d.phase with
  | .dropping rest => rest
  | _ => []

theorem dropsLeft_iff (d : Delete) (p : Drop → Prop) :
    (∀ rest, d.phase = .dropping rest → ∀ x ∈ rest, p x) ↔ ∀ x ∈ dropsLeft d, p x := by
  unfold dropsLeft
  cases d.phase <;> simp

instance (p : Publish sha256Hex) : Decidable (FreeFor env s p) :=
  decidable_of_iff
    ((∀ u q, s.publishes.lookup u = some q → q.phase.inFlight = true →
        q.recordKey env ≠ p.recordKey env ∧ q.storageKey ≠ p.storageKey) ∧
      (∀ key r, s.store.lookup key = some r → r.status = .published →
        storageKeyOf r.pkg ≠ p.storageKey) ∧
      ∀ u d, s.deletes.lookup u = some d → ∀ x ∈ dropsLeft d, x.hits p.storageKey = false) <| by
    simp only [← dropsLeft_iff]
    constructor
    · rintro ⟨hpublishes, hrows, hdeletes⟩
      exact ⟨hpublishes, hrows, fun u d rest hd hrest => hdeletes u d hd rest hrest⟩
    · intro h
      exact ⟨h.publishes, h.rows, fun u d hd rest hrest => h.deletes u d rest hd hrest⟩

instance (d : Delete) : Decidable (DropsOwn env kindOf s d) :=
  decidable_of_iff
    ((∀ key r, s.store.lookup key = some r → r.status = .published → key ≠ d.recordKey env →
        ∀ x ∈ d.drops kindOf, x.hits (storageKeyOf r.pkg) = false) ∧
      ∀ u q, s.publishes.lookup u = some q → q.phase.inFlight = true →
        q.recordKey env ≠ d.recordKey env → ∀ x ∈ d.drops kindOf, x.hits q.storageKey = false)
    ⟨fun h => ⟨h.1, h.2⟩, fun h => ⟨h.rows, h.publishes⟩⟩

instance (p : Publish sha256Hex) (now : DateTime) :
    Decidable (∀ store, publish env now p.pkg s.store = .ok store → FreeFor env s p) :=
  decidable_of_iff
      (((publish env now p.pkg s.store).toOption).isSome = true → FreeFor env s p) <| by
    cases publish env now p.pkg s.store <;> simp [Except.toOption]

instance decidableUncontested : (e : Event sha256Hex) → Decidable (Uncontested env kindOf s e)
  | .publishStep t now true =>
    inferInstanceAs (Decidable (∀ p ∈ s.publishes.lookup t, p.phase = .ready →
      ∀ store, publish env now p.pkg s.store = .ok store → FreeFor env s p))
  | .deleteStep t now true =>
    inferInstanceAs (Decidable (∀ d ∈ s.deletes.lookup t, d.phase = .ready →
      (tombstoneVersion env now d.registry d.name d.version d.deletedBy s.store).1 = true →
      DropsOwn env kindOf s d))
  | .publishStep _ _ false => isTrue trivial
  | .deleteStep _ _ false => isTrue trivial
  | .startPublish _ _ _ _ => isTrue trivial
  | .dropPublish _ => isTrue trivial
  | .startDelete _ _ _ _ _ => isTrue trivial
  | .dropDelete _ => isTrue trivial

end Deciding

section Invariant
variable (env : TextEnv)

/-- A published row under the publish's record is its own, bytes included. -/
def OwnRow (s : World sha256Hex) (p : Publish sha256Hex) : Prop :=
  ∀ r, s.store.lookup (p.recordKey env) = some r → r.status = .published →
    r.pkg = p.pkg ∧ s.blobs.lookup p.storageKey = some p.req.artifact

def PendingRow (s : World sha256Hex) (p : Publish sha256Hex) : Prop :=
  ∃ r, s.store.lookup (p.recordKey env) = some r ∧ r.status = .pending ∧ r.pkg = p.pkg

def PhaseOk (s : World sha256Hex) (p : Publish sha256Hex) : Prop :=
  match p.phase with
  | .reserved => PendingRow env s p
  | .stored => PendingRow env s p ∧ s.blobs.lookup p.storageKey = some p.req.artifact
  | .committed | .returned true => Kept env s p
  | .undoRow _ => OwnRow env s p
  | .undoBytes => ∀ r, s.store.lookup (p.recordKey env) = some r → r.status = .deleted
  | .ready | .returned false | .dropped => True

structure Inv (s : World sha256Hex) : Prop where
  marked : ∀ key r, s.store.lookup key = some r → r.status = .deleted → r.deletion.isSome = true
  bytes : ChecksumsMatch s
  phases : ∀ t p, s.publishes.lookup t = some p → PhaseOk env s p
  apart : ∀ t u p q, t ≠ u → s.publishes.lookup t = some p → s.publishes.lookup u = some q →
    p.phase.inFlight = true → q.phase.inFlight = true →
    p.recordKey env ≠ q.recordKey env ∧ p.storageKey ≠ q.storageKey
  settled : ∀ t u p q, s.publishes.lookup t = some p → s.publishes.lookup u = some q →
    p.phase.inFlight = true → q.phase = .returned true → p.recordKey env ≠ q.recordKey env
  rows : ∀ t p, s.publishes.lookup t = some p → p.phase.inFlight = true →
    ∀ key r, s.store.lookup key = some r → r.status = .published → key ≠ p.recordKey env →
      storageKeyOf r.pkg ≠ p.storageKey
  dropsRow : ∀ u d rest, s.deletes.lookup u = some d → d.phase = .dropping rest →
    ∀ x ∈ rest, ∀ key r, s.store.lookup key = some r → r.status = .published →
      x.hits (storageKeyOf r.pkg) = false
  dropsFlight : ∀ u d rest, s.deletes.lookup u = some d → d.phase = .dropping rest →
    ∀ x ∈ rest, ∀ t p, s.publishes.lookup t = some p → p.phase.inFlight = true →
      x.hits p.storageKey = true → Deleted env s p

theorem inv_initial : Inv env (World.initial : World sha256Hex) := by
  constructor
  · intro key r h
    simp [World.initial] at h
  · intro key r h
    simp [World.initial] at h
  · intro t p h
    simp [World.initial] at h
  · intro t u p q _ h
    simp [World.initial] at h
  · intro t u p q h
    simp [World.initial] at h
  · intro t p h
    simp [World.initial] at h
  · intro u d rest h
    simp [World.initial] at h
  · intro u d rest h
    simp [World.initial] at h

variable {env} {s : World sha256Hex}

/-- While it is in flight, a publish owns the published row under its record. -/
theorem ownRow_of_inFlight {p : Publish sha256Hex} (hfly : p.phase.inFlight = true)
    (h : PhaseOk env s p) : OwnRow env s p := by
  intro r hr hpublished
  have hpending : ¬ PendingRow env s p := by
    intro hex
    obtain ⟨r', hr', hpending, -⟩ := hex
    obtain rfl := Option.some.inj (hr.symm.trans hr')
    rw [hpublished] at hpending
    exact absurd hpending (by decide)
  have hdeleted : r.status ≠ .deleted := by
    rw [hpublished]
    decide
  unfold PhaseOk at h
  cases hphase : p.phase with
  | ready => simp [hphase, PublishPhase.inFlight] at hfly
  | reserved =>
    simp only [hphase] at h
    exact absurd h hpending
  | stored =>
    simp only [hphase] at h
    exact absurd h.1 hpending
  | committed =>
    simp only [hphase] at h
    rcases h with ⟨r', hr', hdel⟩ | ⟨r', hr', -, hpkg, hbytes⟩
    · obtain rfl := Option.some.inj (hr.symm.trans hr')
      exact absurd hdel hdeleted
    · obtain rfl := Option.some.inj (hr.symm.trans hr')
      exact ⟨hpkg, hbytes⟩
  | undoRow bytes =>
    simp only [hphase] at h
    exact h r hr hpublished
  | undoBytes =>
    simp only [hphase] at h
    exact absurd (h r hr) hdeleted
  | returned ok => simp [hphase, PublishPhase.inFlight] at hfly
  | dropped => simp [hphase, PublishPhase.inFlight] at hfly

/-- What a publish is promised depends on its own row and bytes only, and on its
row only once that is a tombstone. -/
theorem phaseOk_frame {s' : World sha256Hex} {p : Publish sha256Hex}
    (hrow : s'.store.lookup (p.recordKey env) = s.store.lookup (p.recordKey env))
    (hblob : Deleted env s p ∨ s'.blobs.lookup p.storageKey = s.blobs.lookup p.storageKey)
    (h : PhaseOk env s p) : PhaseOk env s' p := by
  have hpending : PendingRow env s p →
      PendingRow env s' p ∧ s'.blobs.lookup p.storageKey = s.blobs.lookup p.storageKey := by
    intro hex
    obtain ⟨r, hr, hstatus, hpkg⟩ := hex
    refine ⟨⟨r, hrow.trans hr, hstatus, hpkg⟩, ?_⟩
    rcases hblob with ⟨r', hr', hdel⟩ | hblob
    · obtain rfl := Option.some.inj (hr.symm.trans hr')
      rw [hstatus] at hdel
      exact absurd hdel (by decide)
    · exact hblob
  have hkept : Kept env s p → Kept env s' p := by
    intro hcase
    rcases hcase with ⟨r, hr, hdel⟩ | ⟨r, hr, hstatus, hpkg, hbytes⟩
    · exact .inl ⟨r, hrow.trans hr, hdel⟩
    · rcases hblob with ⟨r', hr', hdel⟩ | hblob
      · exact .inl ⟨r', hrow.trans hr', hdel⟩
      · exact .inr ⟨r, hrow.trans hr, hstatus, hpkg, hblob.trans hbytes⟩
  unfold PhaseOk at h ⊢
  cases hphase : p.phase with
  | ready => trivial
  | reserved =>
    simp only [hphase] at h ⊢
    exact (hpending h).1
  | stored =>
    simp only [hphase] at h ⊢
    obtain ⟨hrow', hblob'⟩ := hpending h.1
    exact ⟨hrow', hblob'.trans h.2⟩
  | committed =>
    simp only [hphase] at h ⊢
    exact hkept h
  | undoRow bytes =>
    simp only [hphase] at h ⊢
    intro r hr hstatus
    rw [hrow] at hr
    obtain ⟨hpkg, hbytes⟩ := h r hr hstatus
    rcases hblob with ⟨r', hr', hdel⟩ | hblob
    · obtain rfl := Option.some.inj (hr.symm.trans hr')
      rw [hstatus] at hdel
      exact absurd hdel (by decide)
    · exact ⟨hpkg, hblob.trans hbytes⟩
  | undoBytes =>
    simp only [hphase] at h ⊢
    intro r hr
    exact h r (hrow ▸ hr)
  | returned ok =>
    cases ok with
    | false => trivial
    | true =>
      simp only [hphase] at h ⊢
      exact hkept h
  | dropped => trivial

/-- An `Ok` publish and its row, seen from a publish in flight: another record, and
another storage key while the row is live. -/
theorem kept_apart (h : Inv env s) {t u : ℕ} {p q : Publish sha256Hex}
    (hp : s.publishes.lookup t = some p) (hq : s.publishes.lookup u = some q)
    (hfly : p.phase.inFlight = true) (hok : q.phase = .returned true) :
    q.recordKey env ≠ p.recordKey env ∧ (Deleted env s q ∨ q.storageKey ≠ p.storageKey) := by
  have hkey := (h.settled t u p q hp hq hfly hok).symm
  have hkept := h.phases u q hq
  simp only [PhaseOk, hok] at hkept
  refine ⟨hkey, ?_⟩
  rcases hkept with hdel | ⟨r, hr, hstatus, hpkg, -⟩
  · exact .inl hdel
  · have hne := h.rows t p hp hfly _ r hr hstatus hkey
    rw [hpkg] at hne
    exact .inr hne

theorem phaseOk_of_idle {q : Publish sha256Hex} (hfly : q.phase.inFlight = false)
    (hret : q.phase ≠ .returned true) : PhaseOk env s q := by
  unfold PhaseOk
  cases hphase : q.phase with
  | returned ok =>
    cases ok with
    | false => trivial
    | true => exact absurd hphase hret
  | ready => trivial
  | dropped => trivial
  | reserved => simp [hphase, PublishPhase.inFlight] at hfly
  | stored => simp [hphase, PublishPhase.inFlight] at hfly
  | committed => simp [hphase, PublishPhase.inFlight] at hfly
  | undoRow bytes => simp [hphase, PublishPhase.inFlight] at hfly
  | undoBytes => simp [hphase, PublishPhase.inFlight] at hfly

/-- A call of a publish in flight: it changes its own row, its own bytes and its phase. -/
structure OwnStep (env : TextEnv) (s s' : World sha256Hex) (t : ℕ) (p : Publish sha256Hex)
    (phase : PublishPhase) : Prop where
  inFlight : p.phase.inFlight = true
  before : s.publishes.lookup t = some p
  after : ∀ u q, s'.publishes.lookup u = some q →
    u = t ∧ q = { p with phase := phase } ∨ u ≠ t ∧ s.publishes.lookup u = some q
  deletes : s'.deletes = s.deletes
  rows : ∀ key, key ≠ p.recordKey env → s'.store.lookup key = s.store.lookup key
  blobs : ∀ key, key ≠ p.storageKey → s'.blobs.lookup key = s.blobs.lookup key
  marked : ∀ r, s'.store.lookup (p.recordKey env) = some r → r.status = .deleted →
    r.deletion.isSome = true
  own : OwnRow env s' p
  deleted : Deleted env s p → Deleted env s' p
  phaseOk : PhaseOk env s' { p with phase := phase }

section Own
variable {s' : World sha256Hex} {t : ℕ} {p : Publish sha256Hex} {phase : PublishPhase}

/-- A row that is published after the step is the publish's own, or was there
before under another record. -/
theorem OwnStep.published (hstep : OwnStep env s s' t p phase) {key : String × String}
    {r : Record} (hr : s'.store.lookup key = some r) (hstatus : r.status = .published) :
    (key = p.recordKey env ∧ r.pkg = p.pkg ∧ s'.blobs.lookup p.storageKey = some p.req.artifact) ∨
      key ≠ p.recordKey env ∧ s.store.lookup key = some r := by
  by_cases hkey : key = p.recordKey env
  · subst hkey
    exact .inl ⟨rfl, hstep.own r hr hstatus⟩
  · exact .inr ⟨hkey, (hstep.rows key hkey) ▸ hr⟩

theorem OwnStep.bytes (hstep : OwnStep env s s' t p phase) (h : Inv env s) :
    ChecksumsMatch s' := by
  intro key r hr hstatus
  rcases hstep.published hr hstatus with ⟨-, hpkg, hbytes⟩ | ⟨hkey, hold⟩
  · rw [hpkg]
    exact ⟨p.req.artifact, hbytes, p.req.computed⟩
  · obtain ⟨bytes, hbytes, hsum⟩ := h.bytes key r hold hstatus
    have hne := h.rows t p hstep.before hstep.inFlight key r hold hstatus hkey
    exact ⟨bytes, (hstep.blobs _ hne).trans hbytes, hsum⟩

theorem OwnStep.phases (hstep : OwnStep env s s' t p phase) (h : Inv env s) (u : ℕ)
    (q : Publish sha256Hex) (hq : s'.publishes.lookup u = some q) : PhaseOk env s' q := by
  rcases hstep.after u q hq with ⟨-, rfl⟩ | ⟨hne, hold⟩
  · exact hstep.phaseOk
  · by_cases hflyq : q.phase.inFlight = true
    · obtain ⟨hkey, hstorage⟩ := h.apart u t q p hne hold hstep.before hflyq hstep.inFlight
      exact phaseOk_frame (hstep.rows _ hkey) (.inr (hstep.blobs _ hstorage)) (h.phases u q hold)
    · by_cases hok : q.phase = .returned true
      · obtain ⟨hkey, hstorage⟩ := kept_apart h hstep.before hold hstep.inFlight hok
        exact phaseOk_frame (hstep.rows _ hkey) (hstorage.imp_right (hstep.blobs _))
          (h.phases u q hold)
      · exact phaseOk_of_idle (by simpa using hflyq) hok

theorem OwnStep.apart (hstep : OwnStep env s s' t p phase) (h : Inv env s) (u v : ℕ)
    (q₁ q₂ : Publish sha256Hex) (hne : u ≠ v) (hq₁ : s'.publishes.lookup u = some q₁)
    (hq₂ : s'.publishes.lookup v = some q₂) (hfly₁ : q₁.phase.inFlight = true)
    (hfly₂ : q₂.phase.inFlight = true) :
    q₁.recordKey env ≠ q₂.recordKey env ∧ q₁.storageKey ≠ q₂.storageKey := by
  rcases hstep.after u q₁ hq₁ with ⟨rfl, rfl⟩ | ⟨-, hold₁⟩
  · rcases hstep.after v q₂ hq₂ with ⟨rfl, -⟩ | ⟨-, hold₂⟩
    · exact absurd rfl hne
    · exact h.apart u v p q₂ hne hstep.before hold₂ hstep.inFlight hfly₂
  · rcases hstep.after v q₂ hq₂ with ⟨rfl, rfl⟩ | ⟨-, hold₂⟩
    · exact h.apart u v q₁ p hne hold₁ hstep.before hfly₁ hstep.inFlight
    · exact h.apart u v q₁ q₂ hne hold₁ hold₂ hfly₁ hfly₂

theorem OwnStep.settled (hstep : OwnStep env s s' t p phase) (h : Inv env s) (u v : ℕ)
    (q₁ q₂ : Publish sha256Hex) (hq₁ : s'.publishes.lookup u = some q₁)
    (hq₂ : s'.publishes.lookup v = some q₂) (hfly₁ : q₁.phase.inFlight = true)
    (hok₂ : q₂.phase = .returned true) : q₁.recordKey env ≠ q₂.recordKey env := by
  rcases hstep.after u q₁ hq₁ with ⟨rfl, rfl⟩ | ⟨hu, hold₁⟩
  · rcases hstep.after v q₂ hq₂ with ⟨rfl, rfl⟩ | ⟨-, hold₂⟩
    · rw [hok₂] at hfly₁
      exact absurd hfly₁ (by decide)
    · exact h.settled u v p q₂ hstep.before hold₂ hstep.inFlight hok₂
  · rcases hstep.after v q₂ hq₂ with ⟨rfl, rfl⟩ | ⟨-, hold₂⟩
    · exact (h.apart u v q₁ p hu hold₁ hstep.before hfly₁ hstep.inFlight).1
    · exact h.settled u v q₁ q₂ hold₁ hold₂ hfly₁ hok₂

theorem OwnStep.dropsRow (hstep : OwnStep env s s' t p phase) (h : Inv env s) (u : ℕ)
    (d : Delete) (rest : List Drop) (hd : s'.deletes.lookup u = some d)
    (hdrop : d.phase = .dropping rest) (x : Drop) (hx : x ∈ rest) (key : String × String)
    (r : Record) (hr : s'.store.lookup key = some r) (hstatus : r.status = .published) :
    x.hits (storageKeyOf r.pkg) = false := by
  rw [hstep.deletes] at hd
  rcases hstep.published hr hstatus with ⟨rfl, hpkg, -⟩ | ⟨-, hold⟩
  · rw [hpkg, storageKeyOf_pkg]
    by_contra hhit
    -- a drop that hits it would mean that its record is spent, and the row is published
    obtain ⟨r', hr', hdel⟩ := hstep.deleted (h.dropsFlight u d rest hd hdrop x hx t p
      hstep.before hstep.inFlight (by simpa using hhit))
    obtain rfl := Option.some.inj (hr.symm.trans hr')
    rw [hstatus] at hdel
    exact absurd hdel (by decide)
  · exact h.dropsRow u d rest hd hdrop x hx key r hold hstatus

theorem inv_own (h : Inv env s) (t : ℕ) (p : Publish sha256Hex) (phase : PublishPhase)
    (hstep : OwnStep env s s' t p phase) : Inv env s' := by
  refine ⟨?_, hstep.bytes h, hstep.phases h, hstep.apart h, hstep.settled h, ?_,
    hstep.dropsRow h, ?_⟩
  · intro key r hr hdel
    by_cases hkey : key = p.recordKey env
    · subst hkey
      exact hstep.marked r hr hdel
    · exact h.marked key r ((hstep.rows key hkey) ▸ hr) hdel
  · intro u q hq hflyq key r hr hstatus hkeyq
    rcases hstep.after u q hq with ⟨rfl, rfl⟩ | ⟨hne, hold⟩
    · exact h.rows u p hstep.before hstep.inFlight key r ((hstep.rows key hkeyq) ▸ hr) hstatus
        hkeyq
    · rcases hstep.published hr hstatus with ⟨-, hpkg, -⟩ | ⟨-, hrow⟩
      · rw [hpkg]
        exact (h.apart u t q p hne hold hstep.before hflyq hstep.inFlight).2.symm
      · exact h.rows u q hold hflyq key r hrow hstatus hkeyq
  · intro u d rest hd hdrop x hx v q hq hflyq hhit
    rw [hstep.deletes] at hd
    rcases hstep.after v q hq with ⟨rfl, rfl⟩ | ⟨hne, hold⟩
    · exact hstep.deleted (h.dropsFlight u d rest hd hdrop x hx v p hstep.before hstep.inFlight
        hhit)
    · obtain ⟨r, hr, hdel⟩ := h.dropsFlight u d rest hd hdrop x hx v q hold hflyq hhit
      have hkey := (h.apart v t q p hne hold hstep.before hflyq hstep.inFlight).1
      exact ⟨r, (hstep.rows _ hkey).trans hr, hdel⟩

end Own

/-- A publish that is not in flight and has not returned `Ok` asks for nothing. -/
theorem inv_idle (h : Inv env s) (t : ℕ) (p : Publish sha256Hex) (phase : PublishPhase)
    (hidle : phase.inFlight = false) (hret : phase ≠ .returned true) :
    Inv env (s.setPublish t p phase) := by
  have hold : ∀ u q, (s.setPublish t p phase).publishes.lookup u = some q →
      q.phase.inFlight = true ∨ q.phase = .returned true → s.publishes.lookup u = some q := by
    intro u q hq hactive
    rcases lookup_setPublish hq with ⟨-, rfl⟩ | ⟨-, hq⟩
    · rcases hactive with hfly | hok
      · exact absurd (hidle.symm.trans hfly) (by decide)
      · exact absurd hok hret
    · exact hq
  constructor
  · exact h.marked
  · exact h.bytes
  · intro u q hq
    by_cases hactive : q.phase.inFlight = true ∨ q.phase = .returned true
    · exact phaseOk_frame rfl (.inr rfl) (h.phases u q (hold u q hq hactive))
    · rw [not_or] at hactive
      exact phaseOk_of_idle (by simpa using hactive.1) hactive.2
  · intro u v q₁ q₂ hne hq₁ hq₂ hfly₁ hfly₂
    exact h.apart u v q₁ q₂ hne (hold u q₁ hq₁ (.inl hfly₁)) (hold v q₂ hq₂ (.inl hfly₂))
      hfly₁ hfly₂
  · intro u v q₁ q₂ hq₁ hq₂ hfly₁ hok₂
    exact h.settled u v q₁ q₂ (hold u q₁ hq₁ (.inl hfly₁)) (hold v q₂ hq₂ (.inr hok₂)) hfly₁ hok₂
  · intro u q hq hfly
    exact h.rows u q (hold u q hq (.inl hfly)) hfly
  · exact h.dropsRow
  · intro u d rest hd hdrop x hx v q hq hfly hhit
    exact h.dropsFlight u d rest hd hdrop x hx v q (hold v q hq (.inl hfly)) hfly hhit

/-- A record that takes a reservation is neither published nor a tombstone. -/
theorem vacant_of_publish (h : Inv env s) {pkg : PublishedPackage} {now : DateTime}
    {store : Store} (hok : publish env now pkg s.store = .ok store) (r : Record)
    (hr : s.store.lookup (recordKey env pkg.registry pkg.name pkg.version) = some r) :
    r.status = .pending := by
  obtain ⟨hdeletion, hpublished⟩ := (publish_eq_ok env hok).2 r hr
  cases hstatus : r.status with
  | pending => rfl
  | published => exact absurd hstatus hpublished
  | deleted =>
    have hmark := h.marked _ r hr hstatus
    rw [hdeletion] at hmark
    exact absurd hmark (by decide)

/-- No publish has returned `Ok` on a vacant record. -/
theorem ok_apart_of_vacant (h : Inv env s) {p : Publish sha256Hex}
    (hvacant : ∀ r, s.store.lookup (p.recordKey env) = some r → r.status = .pending) {u : ℕ}
    {q : Publish sha256Hex} (hq : s.publishes.lookup u = some q)
    (hok : q.phase = .returned true) : q.recordKey env ≠ p.recordKey env := by
  intro hkey
  have hkept := h.phases u q hq
  simp only [PhaseOk, hok] at hkept
  rcases hkept with ⟨r, hr, hstatus⟩ | ⟨r, hr, hstatus, -⟩
  · rw [hkey] at hr
    rw [hvacant r hr] at hstatus
    exact absurd hstatus (by decide)
  · rw [hkey] at hr
    rw [hvacant r hr] at hstatus
    exact absurd hstatus (by decide)

/-- The reservation: the row was neither published nor a tombstone, and nobody
else works on it. -/
theorem inv_reserve (h : Inv env s) {t : ℕ} {p : Publish sha256Hex} {now : DateTime}
    {store : Store} (hok : publish env now p.pkg s.store = .ok store) (hfree : FreeFor env s p) :
    Inv env (({ s with store := store } : World sha256Hex).setPublish t p .reserved) := by
  have hstore := (publish_eq_ok env hok).1
  have hvacant := vacant_of_publish h hok
  have hrow : store.lookup (p.recordKey env) = some ⟨p.pkg, .pending, now, none⟩ := by
    rw [hstore, lookup_insert_eq]
    exact if_pos rfl
  have hrows : ∀ key, key ≠ p.recordKey env → store.lookup key = s.store.lookup key := by
    intro key hkey
    rw [hstore, lookup_insert_eq]
    exact if_neg hkey
  have hpublished : ∀ key r, store.lookup key = some r → r.status ≠ .pending →
      key ≠ p.recordKey env ∧ s.store.lookup key = some r := by
    intro key r hr hstatus
    have hkey : key ≠ p.recordKey env := by
      intro heq
      subst heq
      obtain rfl := Option.some.inj (hrow.symm.trans hr)
      exact hstatus rfl
    exact ⟨hkey, (hrows key hkey) ▸ hr⟩
  have hother : ∀ u q, s.publishes.lookup u = some q → q.phase = .returned true →
      q.recordKey env ≠ p.recordKey env :=
    fun u q hq hokq => ok_apart_of_vacant h hvacant hq hokq
  constructor
  · intro key r hr hstatus
    exact h.marked key r (hpublished key r hr (by simp [hstatus])).2 hstatus
  · intro key r hr hstatus
    exact h.bytes key r (hpublished key r hr (by simp [hstatus])).2 hstatus
  · intro u q hq
    rcases lookup_setPublish hq with ⟨-, rfl⟩ | ⟨-, hold⟩
    · exact ⟨_, hrow, rfl, rfl⟩
    · by_cases hfly : q.phase.inFlight = true
      · exact phaseOk_frame (hrows _ (hfree.publishes u q hold hfly).1) (.inr rfl)
          (h.phases u q hold)
      · by_cases hokq : q.phase = .returned true
        · exact phaseOk_frame (hrows _ (hother u q hold hokq)) (.inr rfl) (h.phases u q hold)
        · exact phaseOk_of_idle (by simpa using hfly) hokq
  · intro u v q₁ q₂ hne hq₁ hq₂ hfly₁ hfly₂
    rcases lookup_setPublish hq₁ with ⟨rfl, rfl⟩ | ⟨-, hold₁⟩
    · rcases lookup_setPublish hq₂ with ⟨rfl, -⟩ | ⟨-, hold₂⟩
      · exact absurd rfl hne
      · obtain ⟨hkey, hstorage⟩ := hfree.publishes v q₂ hold₂ hfly₂
        exact ⟨hkey.symm, hstorage.symm⟩
    · rcases lookup_setPublish hq₂ with ⟨rfl, rfl⟩ | ⟨-, hold₂⟩
      · exact hfree.publishes u q₁ hold₁ hfly₁
      · exact h.apart u v q₁ q₂ hne hold₁ hold₂ hfly₁ hfly₂
  · intro u v q₁ q₂ hq₁ hq₂ hfly₁ hok₂
    rcases lookup_setPublish hq₂ with ⟨-, rfl⟩ | ⟨-, hold₂⟩
    · exact absurd hok₂ (by simp)
    · rcases lookup_setPublish hq₁ with ⟨-, rfl⟩ | ⟨-, hold₁⟩
      · exact (hother v q₂ hold₂ hok₂).symm
      · exact h.settled u v q₁ q₂ hold₁ hold₂ hfly₁ hok₂
  · intro u q hq hfly key r hr hstatus hkey
    obtain ⟨-, hr⟩ := hpublished key r hr (by simp [hstatus])
    rcases lookup_setPublish hq with ⟨-, rfl⟩ | ⟨-, hold⟩
    · exact hfree.rows key r hr hstatus
    · exact h.rows u q hold hfly key r hr hstatus hkey
  · intro u d rest hd hdrop x hx key r hr hstatus
    exact h.dropsRow u d rest hd hdrop x hx key r (hpublished key r hr (by simp [hstatus])).2
      hstatus
  · intro u d rest hd hdrop x hx v q hq hfly hhit
    rcases lookup_setPublish hq with ⟨-, rfl⟩ | ⟨-, hold⟩
    · have hmiss := hfree.deletes u d rest hd hdrop x hx
      exact absurd (hmiss.symm.trans hhit) (by decide)
    · obtain ⟨r, hr, hdel⟩ := h.dropsFlight u d rest hd hdrop x hx v q hold hfly hhit
      exact ⟨r, (hrows _ (hfree.publishes v q hold hfly).1).trans hr, hdel⟩

end Invariant

end BatleHub.PublishOwnership
