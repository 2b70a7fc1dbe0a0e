import BatleHub.PackageOwners
import BatleHub.PublishRuns
import Mathlib.Data.List.Induction

/-!
A delete of one version against a publish of another of the same package. The publish
asks whether the package exists and who may publish it, runs its transaction and
registers its publisher as owner of a new name; the delete, once the row is a tombstone
and its bytes are gone, asks whether a version is left and takes the owner rows away if
none is. Each of them checks the versions and writes the owners.
-/
namespace BatleHub.NameRelease

open LocalPackages InMemoryRegistry PublishProtocol PackageOwners Lib.AssocMap Lib.Runs

/-- The two implementations of `remove_all_owners`. -/
inductive Removal where
  | loop
  | statement
  deriving DecidableEq, Repr

inductive PublisherPhase where
  | starting
  | existsRead (packageExists : Bool)
  | transacting (isNewPackage : Bool)
  | refused
  | finished (registered : Bool)
  deriving DecidableEq, Repr

inductive DeleterPhase where
  | deleting
  | releasing
  | removing (rows : List OwnerEntry)
  | finished
  deriving DecidableEq, Repr

/-- The delete was told that no version is left, and has yet to be done with the owners. -/
def DeleterPhase.isReleasing : DeleterPhase → Bool
  | .releasing | .removing _ => true
  | _ => false

variable {sha256Hex : List UInt8 → String}

/-- The versions and bytes with both transactions, the owner rows, and where the two calls
stand around their transactions. -/
structure World (sha256Hex : List UInt8 → String) where
  base : PublishProtocol.World sha256Hex
  owners : Owners
  publisher : PublisherPhase
  deleter : DeleterPhase

/-- `ok` says whether the call behind the step succeeds, where it may fail. -/
inductive Event where
  | checkExists (ok : Bool)
  | checkOwner (ok : Bool)
  | transact (now : DateTime) (ok : Bool)
  | register (ok : Bool)
  | delete (now : DateTime) (ok : Bool)
  | checkLast (ok : Bool)
  | listOwners (ok : Bool)
  | removeOwner (ok : Bool)
  | removeAllOwners (ok : Bool)

section Steps
variable (env : TextEnv) (kindOf : String → Option RegistryKind) (removal : Removal)
  (req : PublishRequest sha256Hex) (groups : List String)

/-- The stores, with the publish of `req` and the delete of `version` before their first
call. -/
def World.initial (store : Store) (blobs : Blobs) (owners : Owners) (publishedAt : DateTime)
    (visibility : Visibility) (version : String) (deletedBy : Option String) :
    World sha256Hex where
  base :=
    { store := store
      blobs := blobs
      publishes := (∅ : Assoc ℕ (Publish sha256Hex)).insert 0 ⟨req, publishedAt, visibility, .ready⟩
      deletes := (∅ : Assoc ℕ Delete).insert 0 ⟨req.registry, req.name, version, deletedBy, .ready⟩ }
  owners := owners
  publisher := .starting
  deleter := .deleting

def World.publishPhase (w : World sha256Hex) : Option PublishPhase :=
  (w.base.publishes.lookup 0).map (·.phase)

def World.deletePhase (w : World sha256Hex) : Option DeletePhase :=
  (w.base.deletes.lookup 0).map (·.phase)

/-- `register_initial_owner`. A failure is logged and the publish is still `Ok`. -/
def registerInitialOwner (isNewPackage ok : Bool) (w : World sha256Hex) : World sha256Hex :=
  match isNewPackage, req.publisherId, ok with
  | true, some uid, true =>
    { w with
      owners := initializeOwner req.registry req.name uid w.owners
      publisher := .finished true }
  | _, _, _ => { w with publisher := .finished false }

def step (w : World sha256Hex) : Event → World sha256Hex
  | .checkExists ok =>
    match w.publisher with
    | .starting =>
      -- a publisher without an id is refused before the ownership check
      if ok && req.publisherId.isSome then
        { w with publisher := .existsRead (existsPublished env req.registry req.name w.base.store) }
      else { w with publisher := .refused }
    | _ => w
  | .checkOwner ok =>
    match w.publisher with
    | .existsRead packageExists =>
      if ok && canPublish req.registry req.name req.publisherId groups w.owners then
        { w with publisher := .transacting (!packageExists) }
      else { w with publisher := .refused }
    | _ => w
  | .transact now ok =>
    match w.publisher with
    | .transacting _ =>
      { w with base := PublishProtocol.step env kindOf w.base (.publishStep 0 now ok) }
    | _ => w
  | .register ok =>
    match w.publisher, w.publishPhase with
    | .transacting isNewPackage, some (.returned true) => registerInitialOwner req isNewPackage ok w
    | _, _ => w
  | .delete now ok =>
    match w.deleter with
    | .deleting =>
      { w with base := PublishProtocol.step env kindOf w.base (.deleteStep 0 now ok) }
    | _ => w
  | .checkLast ok =>
    match w.deleter, w.deletePhase with
    | .deleting, some (.returned true) =>
      if ok && !existsPublished env req.registry req.name w.base.store then
        { w with deleter := .releasing }
      else { w with deleter := .finished }
    | _, _ => w
  | .listOwners ok =>
    match w.deleter, removal with
    | .releasing, .loop =>
      { w with
        deleter :=
          if ok then .removing (PackageOwners.listOwners req.registry req.name w.owners)
          else .finished }
    | _, _ => w
  | .removeOwner ok =>
    match w.deleter with
    | .removing (e :: rest) =>
      if ok then
        { w with
          owners :=
            PackageOwners.removeOwner req.registry req.name e.principalType e.principalId w.owners
          deleter := .removing rest }
      else { w with deleter := .finished }
    | .removing [] => { w with deleter := .finished }
    | _ => w
  | .removeAllOwners ok =>
    match w.deleter, removal with
    | .releasing, .statement =>
      { w with
        owners :=
          if ok then PackageOwners.removeAllOwners req.registry req.name w.owners else w.owners
        deleter := .finished }
    | _, _ => w

/-- The step takes the owner rows of the publisher away. -/
def TakesAway (w : World sha256Hex) : Event → Prop
  | .removeOwner ok =>
    ok = true ∧ ∃ e rest, w.deleter = .removing (e :: rest) ∧ e.principalType = "user" ∧
      req.publisherId = some e.principalId
  | .removeAllOwners ok => ok = true ∧ removal = .statement ∧ w.deleter = .releasing
  | _ => False

def World.Committed (w : World sha256Hex) : Prop :=
  w.publishPhase = some .committed ∨ w.publishPhase = some (.returned true)

/-- The delete is told that no version is left before the publish commits, and takes the
owner rows of the publisher away after it has registered. -/
def Overtaken (start : World sha256Hex) (events : List Event) : Prop :=
  ∃ before ok mid event after, events = before ++ .checkLast ok :: (mid ++ event :: after) ∧
    (run (step env kindOf removal req groups) start before).deleter = .deleting ∧
    ¬ (run (step env kindOf removal req groups) start before).Committed ∧
    (run (step env kindOf removal req groups) start (before ++ [.checkLast ok])).deleter =
      .releasing ∧
    (run (step env kindOf removal req groups) start
      (before ++ .checkLast ok :: mid)).publisher = .finished true ∧
    TakesAway removal req (run (step env kindOf removal req groups) start
      (before ++ .checkLast ok :: mid)) event

end Steps

section Kept
variable (env : TextEnv) {kindOf : String → Option RegistryKind} {removal : Removal}
  (req : PublishRequest sha256Hex) {groups : List String} (version : String)

/-- The row of a publish under way is there, and published from the commit on. -/
def RowOk (store : Store) (p : Publish sha256Hex) : Prop :=
  match p.phase with
  | .reserved | .stored => ∃ r, store.lookup (p.recordKey env) = some r
  | .committed | .returned true =>
    ∃ r, store.lookup (p.recordKey env) = some r ∧ r.status = .published
  | _ => True

structure Inv (w : World sha256Hex) : Prop where
  publish : ∃ p, w.base.publishes.lookup 0 = some p ∧ p.req = req ∧ RowOk env w.base.store p
  delete : ∃ d, w.base.deletes.lookup 0 = some d ∧
    d.recordKey env = recordKey env req.registry req.name version
  registered : w.publisher = .finished true → w.publishPhase = some (.returned true) ∧
    ∃ uid, req.publisherId = some uid ∧ OwnedBy req.registry req.name uid w.owners

theorem rowOk_congr {store store' : Store} {p : Publish sha256Hex}
    (h : store'.lookup (p.recordKey env) = store.lookup (p.recordKey env))
    (hp : RowOk env store p) : RowOk env store' p := by
  unfold RowOk at hp ⊢
  rw [h]
  exact hp

theorem exists_moved {s : PublishProtocol.World sha256Hex} {p : Publish sha256Hex}
    (hreq : p.req = req) (phase : PublishPhase)
    (hrow : RowOk env s.store { p with phase := phase }) :
    ∃ p', (s.setPublish 0 p phase).publishes.lookup 0 = some p' ∧ p'.req = req ∧
      RowOk env (s.setPublish 0 p phase).store p' := by
  refine ⟨{ p with phase := phase }, ?_, hreq, hrow⟩
  simp [World.setPublish]

/-- Each call of the transaction keeps the row it has reserved. -/
theorem rowOk_publishStep {s : PublishProtocol.World sha256Hex} {p : Publish sha256Hex}
    (hp : RowOk env s.store p) (hreq : p.req = req) (hhere : s.publishes.lookup 0 = some p)
    (now : DateTime) (ok : Bool) :
    ∃ p', (publishStep env s 0 p now ok).publishes.lookup 0 = some p' ∧ p'.req = req ∧
      RowOk env (publishStep env s 0 p now ok).store p' := by
  cases hphase : p.phase with
  | ready =>
    simp only [publishStep, hphase]
    cases ok with
    | false => exact exists_moved env req hreq _ trivial
    | true =>
      cases hpublish : InMemoryRegistry.publish env now p.pkg s.store with
      | error e => exact exists_moved env req hreq _ trivial
      | ok store =>
        refine exists_moved env req hreq _ ?_
        obtain ⟨rfl, -⟩ := publish_eq_ok env hpublish
        refine ⟨⟨p.pkg, .pending, now, none⟩, ?_⟩
        rw [lookup_insert_eq]
        exact if_pos rfl
  | reserved =>
    simp only [publishStep, hphase]
    have hrow : ∃ r, s.store.lookup (p.recordKey env) = some r := by
      simpa only [RowOk, hphase] using hp
    cases ok with
    | false => exact exists_moved env req hreq _ trivial
    | true => exact exists_moved env req hreq _ hrow
  | stored =>
    simp only [publishStep, hphase]
    obtain ⟨r, hr⟩ : ∃ r, s.store.lookup (p.recordKey env) = some r := by
      simpa only [RowOk, hphase] using hp
    cases ok with
    | false => exact exists_moved env req hreq _ trivial
    | true =>
      refine exists_moved env req hreq _ ⟨{ r with status := .published }, ?_, rfl⟩
      simp only [commitPublish]
      rw [lookup_modify]
      have hkey : s.store.lookup (recordKey env p.req.registry p.req.name p.req.version) = some r :=
        hr
      rw [hkey]
      exact if_pos rfl
  | committed =>
    simp only [publishStep, hphase]
    have hrow : ∃ r, s.store.lookup (p.recordKey env) = some r ∧ r.status = .published := by
      simpa only [RowOk, hphase] using hp
    cases ok with
    | false => exact exists_moved env req hreq _ trivial
    | true => exact exists_moved env req hreq _ hrow
  | undoRow bytes =>
    simp only [publishStep, hphase]
    cases bytes with
    | false => exact exists_moved env req hreq _ trivial
    | true => exact exists_moved env req hreq _ trivial
  | undoBytes =>
    simp only [publishStep, hphase]
    exact exists_moved env req hreq _ trivial
  | returned done =>
    simp only [publishStep, hphase]
    exact ⟨p, hhere, hreq, hp⟩
  | dropped =>
    simp only [publishStep, hphase]
    exact ⟨p, hhere, hreq, hp⟩

/-- A publish that has returned takes no further call. -/
theorem publishStep_of_returned {s : PublishProtocol.World sha256Hex} {p : Publish sha256Hex}
    {done : Bool} (hphase : p.phase = .returned done) (now : DateTime) (ok : Bool) :
    publishStep env s 0 p now ok = s := by
  simp only [publishStep, hphase]

/-- The delete leaves the publish and every other row alone. -/
structure DeleteFrame (d : Delete) (s s' : PublishProtocol.World sha256Hex) : Prop where
  publishes : s'.publishes = s.publishes
  delete : ∃ d', s'.deletes.lookup 0 = some d' ∧ d'.recordKey env = d.recordKey env
  rows : ∀ key, key ≠ d.recordKey env → s'.store.lookup key = s.store.lookup key

theorem deleteFrame_moved (d : Delete) (s t : PublishProtocol.World sha256Hex)
    (hpublishes : t.publishes = s.publishes)
    (hrows : ∀ key, key ≠ d.recordKey env → t.store.lookup key = s.store.lookup key)
    (phase : DeletePhase) : DeleteFrame env d s (t.setDelete 0 d phase) where
  publishes := hpublishes
  delete := ⟨{ d with phase := phase }, by simp [World.setDelete], rfl⟩
  rows := hrows

theorem deleteStep_frame (kindOf : String → Option RegistryKind)
    {s : PublishProtocol.World sha256Hex} {d : Delete} (hhere : s.deletes.lookup 0 = some d)
    (now : DateTime) (ok : Bool) : DeleteFrame env d s (deleteStep env kindOf s 0 d now ok) := by
  have hstay : DeleteFrame env d s s := ⟨rfl, ⟨d, hhere, rfl⟩, fun _ _ => rfl⟩
  cases hphase : d.phase with
  | ready =>
    cases ok with
    | false =>
      simp only [deleteStep, hphase]
      exact deleteFrame_moved env d s s rfl (fun _ _ => rfl) _
    | true =>
      simp only [deleteStep, hphase, if_true]
      refine deleteFrame_moved env d s _ (by rfl) ?_ _
      intro key hkey
      have htomb := lookup_tombstoneVersion env now d.registry d.name d.version d.deletedBy
        s.store key
      rw [htomb]
      exact if_neg hkey
  | dropping rest =>
    cases rest with
    | nil =>
      simp only [deleteStep, hphase]
      exact deleteFrame_moved env d s s rfl (fun _ _ => rfl) _
    | cons x rest =>
      simp only [deleteStep, hphase]
      exact deleteFrame_moved env d s _ (by rfl) (fun _ _ => by rfl) _
  | returned done =>
    simp only [deleteStep, hphase]
    exact hstay
  | dropped =>
    simp only [deleteStep, hphase]
    exact hstay

theorem inv_initial (store : Store) (blobs : Blobs) (owners : Owners) (publishedAt : DateTime)
    (visibility : Visibility) (deletedBy : Option String) :
    Inv env req version
      (World.initial req store blobs owners publishedAt visibility version deletedBy) where
  publish := by
    refine ⟨⟨req, publishedAt, visibility, .ready⟩, ?_, rfl, trivial⟩
    exact AList.lookup_insert _
  delete := by
    refine ⟨⟨req.registry, req.name, version, deletedBy, .ready⟩, ?_, rfl⟩
    exact AList.lookup_insert _
  registered := by
    intro hfinished
    exact absurd hfinished (by simp [World.initial])

/-- The calls around the transactions touch neither of them. -/
theorem Inv.around {w w' : World sha256Hex} (h : Inv env req version w) (hbase : w'.base = w.base)
    (hregistered : w'.publisher = .finished true → w.publishPhase = some (.returned true) ∧
      ∃ uid, req.publisherId = some uid ∧ OwnedBy req.registry req.name uid w'.owners) :
    Inv env req version w' where
  publish := hbase ▸ h.publish
  delete := hbase ▸ h.delete
  registered := by
    have hphase : w'.publishPhase = w.publishPhase := by
      simp only [World.publishPhase, hbase]
    rw [hphase]
    exact hregistered

theorem inv_transact {w : World sha256Hex} (h : Inv env req version w) (now : DateTime)
    (ok : Bool) :
    Inv env req version
      { w with base := PublishProtocol.step env kindOf w.base (.publishStep 0 now ok) } := by
  obtain ⟨p, hp, hreq, hrow⟩ := h.publish
  simp only [PublishProtocol.step, hp]
  refine ⟨rowOk_publishStep env req hrow hreq hp now ok, ?_, ?_⟩
  · obtain ⟨d, hd, hkey⟩ := h.delete
    refine ⟨d, ?_, hkey⟩
    have hdeletes : (publishStep env w.base 0 p now ok).deletes = w.base.deletes := by
      simp only [publishStep]
      split <;> try rfl
      all_goals split <;> try rfl
      split <;> rfl
    rw [hdeletes]
    exact hd
  · intro hfinished
    obtain ⟨hphase, howned⟩ := h.registered hfinished
    have hdone : p.phase = .returned true := by
      simpa only [World.publishPhase, hp, Option.map_some, Option.some.injEq] using hphase
    refine ⟨?_, howned⟩
    rw [publishStep_of_returned env hdone]
    exact hphase

theorem inv_delete {w : World sha256Hex} (hother : version ≠ req.version)
    (h : Inv env req version w) (now : DateTime) (ok : Bool) :
    Inv env req version
      { w with base := PublishProtocol.step env kindOf w.base (.deleteStep 0 now ok) } := by
  obtain ⟨d, hd, hkey⟩ := h.delete
  obtain ⟨p, hp, hreq, hrow⟩ := h.publish
  simp only [PublishProtocol.step, hd]
  have hframe := deleteStep_frame env kindOf hd now ok
  have hne : p.recordKey env ≠ d.recordKey env := by
    rw [hkey, Publish.recordKey, hreq]
    intro heq
    exact hother (Prod.mk.inj heq).2.symm
  refine ⟨⟨p, ?_, hreq, rowOk_congr env (hframe.rows _ hne) hrow⟩, ?_, ?_⟩
  · rw [hframe.publishes]
    exact hp
  · obtain ⟨d', hd', hkey'⟩ := hframe.delete
    exact ⟨d', hd', hkey'.trans hkey⟩
  · intro hfinished
    obtain ⟨hphase, howned⟩ := h.registered hfinished
    refine ⟨?_, howned⟩
    simp only [World.publishPhase, hframe.publishes]
    exact hphase

theorem inv_step (hother : version ≠ req.version) (w : World sha256Hex) (event : Event)
    (h : Inv env req version w)
    (hkept : w.publisher = .finished true → ¬ TakesAway removal req w event) :
    Inv env req version (step env kindOf removal req groups w event) := by
  have hunfinished : ∀ {w' : World sha256Hex}, w'.base = w.base → w'.publisher ≠ .finished true →
      Inv env req version w' := by
    intro w' hbase hne
    exact h.around env req version hbase (fun hfinished => absurd hfinished hne)
  -- the deleter's own phase is no concern of the invariant
  have hphases : ∀ {w' : World sha256Hex}, w'.base = w.base → w'.publisher = w.publisher →
      w'.owners = w.owners → Inv env req version w' := by
    intro w' hbase hpublisher howners
    refine h.around env req version hbase ?_
    rw [hpublisher, howners]
    exact h.registered
  cases event with
  | checkExists ok =>
    simp only [step]
    split
    · split
      · exact hunfinished rfl (by simp)
      · exact hunfinished rfl (by simp)
    · exact h
  | checkOwner ok =>
    simp only [step]
    split
    · split
      · exact hunfinished rfl (by simp)
      · exact hunfinished rfl (by simp)
    · exact h
  | transact now ok =>
    simp only [step]
    split
    · exact inv_transact env req version h now ok
    · exact h
  | register ok =>
    simp only [step]
    split
    · rename_i isNewPackage hpublisher hphase
      unfold registerInitialOwner
      split
      · rename_i uid huid
        refine h.around env req version rfl (fun _ => ⟨hphase, uid, huid, ?_⟩)
        exact ownedBy_initializeOwner req.registry req.name uid w.owners
      · exact hunfinished rfl (by simp)
    · exact h
  | delete now ok =>
    simp only [step]
    split
    · exact inv_delete env req version hother h now ok
    · exact h
  | checkLast ok =>
    simp only [step]
    split
    · split
      · exact hphases rfl rfl rfl
      · exact hphases rfl rfl rfl
    · exact h
  | listOwners ok =>
    simp only [step]
    split
    · exact hphases rfl rfl rfl
    · exact h
  | removeOwner ok =>
    simp only [step]
    split
    · rename_i e rest hdeleter
      cases ok with
      | false => exact hphases rfl rfl rfl
      | true =>
        refine h.around env req version rfl ?_
        intro hfinished
        obtain ⟨hphase, uid, huid, howned⟩ := h.registered hfinished
        refine ⟨hphase, uid, huid, howned.removeOwner ?_⟩
        intro hown
        refine hkept hfinished ⟨rfl, e, rest, hdeleter, hown.1, ?_⟩
        rw [huid, hown.2]
    · exact hphases rfl rfl rfl
    · exact h
  | removeAllOwners ok =>
    simp only [step]
    split
    · rename_i hdeleter
      cases ok with
      | false => exact hphases rfl rfl rfl
      | true =>
        refine h.around env req version rfl ?_
        intro hfinished
        exact absurd ⟨rfl, rfl, hdeleter⟩ (hkept hfinished)
    · exact h

theorem existsPublished_of_lookup {store : Store} {r : Record}
    (hr : store.lookup (recordKey env req.registry req.name req.version) = some r)
    (hstatus : r.status = .published) :
    existsPublished env req.registry req.name store = true := by
  unfold existsPublished
  rw [List.any_eq_true]
  refine ⟨_, (lookup_eq_some_iff store _ r).mp hr, ?_⟩
  simp [recordKey, hstatus]

theorem isReleasing_step {w : World sha256Hex} {event : Event}
    (h : (step env kindOf removal req groups w event).deleter.isReleasing = true) :
    w.deleter.isReleasing = true ∨ ∃ ok, event = .checkLast ok ∧ w.deleter = .deleting ∧
      existsPublished env req.registry req.name w.base.store = false ∧
      (step env kindOf removal req groups w event).deleter = .releasing := by
  have hsame : (step env kindOf removal req groups w event).deleter = w.deleter →
      w.deleter.isReleasing = true := fun heq => heq ▸ h
  cases event with
  | checkExists ok =>
    refine .inl (hsame ?_)
    simp only [step]
    split
    · split <;> rfl
    · rfl
  | checkOwner ok =>
    refine .inl (hsame ?_)
    simp only [step]
    split
    · split <;> rfl
    · rfl
  | transact now ok =>
    refine .inl (hsame ?_)
    simp only [step]
    split <;> rfl
  | register ok =>
    refine .inl (hsame ?_)
    simp only [step]
    split
    · unfold registerInitialOwner
      split <;> rfl
    · rfl
  | delete now ok =>
    refine .inl (hsame ?_)
    simp only [step]
    split <;> rfl
  | checkLast ok =>
    simp only [step] at h ⊢
    split at h
    · rename_i hdeleter hphase
      split at h
      · rename_i hnone
        right
        simp only [Bool.and_eq_true, Bool.not_eq_true'] at hnone
        exact ⟨ok, rfl, hdeleter, hnone.2, by rw [if_pos (by simp [hnone])]⟩
      · cases h
    · exact .inl h
  | listOwners ok =>
    simp only [step] at h
    split at h
    · rename_i hdeleter
      exact .inl (by rw [hdeleter]; rfl)
    · exact .inl h
  | removeOwner ok =>
    simp only [step] at h
    split at h
    · rename_i e rest hdeleter
      exact .inl (by rw [hdeleter]; rfl)
    · cases h
    · exact .inl h
  | removeAllOwners ok =>
    simp only [step] at h
    split at h
    · cases h
    · exact .inl h

/-- A delete that goes on to the owner rows was told that no version is left. -/
theorem check_of_isReleasing {start : World sha256Hex} (hstart : start.deleter = .deleting)
    {events : List Event}
    (h : (run (step env kindOf removal req groups) start events).deleter.isReleasing = true) :
    ∃ before ok mid, events = before ++ .checkLast ok :: mid ∧
      (run (step env kindOf removal req groups) start before).deleter = .deleting ∧
      existsPublished env req.registry req.name
        (run (step env kindOf removal req groups) start before).base.store = false ∧
      (run (step env kindOf removal req groups) start (before ++ [.checkLast ok])).deleter =
        .releasing := by
  -- back from the last event to the check
  induction events using List.reverseRecOn with
  | nil =>
    replace h : start.deleter.isReleasing = true := h
    rw [hstart] at h
    cases h
  | append_singleton events event ih =>
    have hlast : run (step env kindOf removal req groups) start (events ++ [event]) =
        step env kindOf removal req groups
          (run (step env kindOf removal req groups) start events) event := run_append start events _
    rw [hlast] at h
    rcases isReleasing_step env req h with hearlier | ⟨ok, rfl, hdeleting, hnone, hreleasing⟩
    · obtain ⟨before, ok, mid, rfl, hrest⟩ := ih hearlier
      exact ⟨before, ok, mid ++ [event], by simp, hrest⟩
    · exact ⟨events, ok, [], rfl, hdeleting, hnone, by rw [hlast]; exact hreleasing⟩

/-- Of a published version the check would have been told. -/
theorem Inv.not_committed {w : World sha256Hex} (h : Inv env req version w)
    (hnone : existsPublished env req.registry req.name w.base.store = false) : ¬ w.Committed := by
  obtain ⟨p, hp, hreq, hrow⟩ := h.publish
  intro hcommitted
  obtain ⟨r, hr, hstatus⟩ : ∃ r, w.base.store.lookup (p.recordKey env) = some r ∧
      r.status = .published := by
    rcases hcommitted with hphase | hphase
    · have hdone : p.phase = .committed := by
        simpa only [World.publishPhase, hp, Option.map_some, Option.some.injEq] using hphase
      simpa only [RowOk, hdone] using hrow
    · have hdone : p.phase = .returned true := by
        simpa only [World.publishPhase, hp, Option.map_some, Option.some.injEq] using hphase
      simpa only [RowOk, hdone] using hrow
  rw [Publish.recordKey, hreq] at hr
  rw [existsPublished_of_lookup env req hr hstatus] at hnone
  cases hnone

/-- A run that does not overtake its publish keeps the invariant at every point: what takes
the owners away has asked before the commit. -/
theorem inv_prefixes (hother : version ≠ req.version) {start : World sha256Hex}
    (hinv : Inv env req version start) (hstart : start.deleter = .deleting) {events : List Event}
    (hnot : ¬ Overtaken env kindOf removal req groups start events) :
    ∀ before, before <+: events →
      Inv env req version (run (step env kindOf removal req groups) start before) := by
  induction events using List.reverseRecOn with
  | nil =>
    intro before hbefore
    rw [List.prefix_nil.mp hbefore]
    exact hinv
  | append_singleton events event ih =>
    have hearlier : ¬ Overtaken env kindOf removal req groups start events := by
      rintro ⟨before, ok, mid, e, after, rfl, hrest⟩
      exact hnot ⟨before, ok, mid, e, after ++ [event], by simp, hrest⟩
    intro before hbefore
    rcases List.prefix_concat_iff.mp hbefore with rfl | hprefix
    · rw [run_append]
      refine inv_step env req version hother _ event (ih hearlier events List.prefix_rfl) ?_
      intro hfinished htakes
      have hreleasing : (run (step env kindOf removal req groups) start
          events).deleter.isReleasing = true := by
        cases event with
        | removeOwner ok =>
          obtain ⟨-, e, rest, hdeleter, -⟩ := htakes
          rw [hdeleter]
          rfl
        | removeAllOwners ok =>
          rw [htakes.2.2]
          rfl
        | _ => exact htakes.elim
      obtain ⟨first, ok, mid, rfl, hdeleting, hnone, htold⟩ :=
        check_of_isReleasing env req hstart hreleasing
      have hcheck := ih hearlier first (List.prefix_append _ _)
      exact hnot ⟨first, ok, mid, event, [], by simp, hdeleting,
        hcheck.not_committed env req version hnone, htold, hfinished, htakes⟩
    · exact ih hearlier before hprefix

end Kept

/-- A publisher that has registered keeps its name: in every state the two calls reach, the
package has a published version and an owner, unless the delete asked before the commit and
acted on the answer after the registration. -/
theorem registered_name_kept (env : TextEnv) (kindOf : String → Option RegistryKind)
    (removal : Removal) (req : PublishRequest sha256Hex) (groups : List String) (store : Store)
    (blobs : Blobs) (owners : Owners) (publishedAt : DateTime) (visibility : Visibility)
    (version : String) (deletedBy : Option String) (hother : version ≠ req.version)
    (events : List Event)
    (hnot : ¬ Overtaken env kindOf removal req groups
      (World.initial req store blobs owners publishedAt visibility version deletedBy) events)
    (hregistered : (run (step env kindOf removal req groups)
      (World.initial req store blobs owners publishedAt visibility version deletedBy)
      events).publisher = .finished true) :
    let w := run (step env kindOf removal req groups)
      (World.initial req store blobs owners publishedAt visibility version deletedBy) events
    existsPublished env req.registry req.name w.base.store = true ∧
      listOwners req.registry req.name w.owners ≠ [] := by
  intro w
  have hinv : Inv env req version w :=
    inv_prefixes env req version hother
      (inv_initial env req version store blobs owners publishedAt visibility deletedBy) rfl hnot
      events List.prefix_rfl
  obtain ⟨hphase, uid, -, howned⟩ := hinv.registered hregistered
  refine ⟨?_, howned.listOwners_ne_nil⟩
  by_contra hnone
  exact hinv.not_committed env req version (by simpa using hnone) (.inr hphase)

section Runs
open PublishRuns

/-- left-pad@0.9.0, the only published version, owned by its publisher. -/
def oldVersion : Store :=
  (∅ : Store).insert (recordKey asciiEnv "npm" "left-pad" "0.9.0")
    ⟨{ (leftPadWith [2]).row 0 .isPublic with version := "0.9.0" }, .published, 0, none⟩

def aliceOwns : Owners :=
  (∅ : Owners).insert ("npm", "left-pad") [⟨"user", "alice", "admin", none⟩]

/-- The owner publishes 1.0.0 while 0.9.0 is being deleted. -/
def republish : World sampleSha256Hex :=
  World.initial (leftPadWith [1]) oldVersion ∅ aliceOwns 0 .isPublic "0.9.0" (some "root")

/-- The tombstone, the bytes of the old version, and the publish up to its commit. -/
def upToLastCheck : List Event :=
  List.replicate 5 (.delete 0 true) ++
    [.checkExists true, .checkOwner true, .transact 0 true, .transact 0 true, .checkLast true]

def commitAndRegister : List Event := [.transact 0 true, .transact 0 true, .register true]

def releasedFirst : List Event := upToLastCheck ++ [.removeAllOwners true] ++ commitAndRegister

def releasedAfter : List Event := upToLastCheck ++ commitAndRegister ++ [.removeAllOwners true]

/-- The same with the rows listed before the registration and removed after it. -/
def loopedAfter : List Event :=
  upToLastCheck ++ [.listOwners true] ++ commitAndRegister ++ [.removeOwner true, .removeOwner true]

def runRepublish (removal : Removal) (events : List Event) : World sampleSha256Hex :=
  run (step asciiEnv npmOnly removal (leftPadWith [1]) []) republish events

/-- The delete asks whether a version is left when the publish has returned. -/
def checkedAfter : List Event :=
  List.replicate 5 (.delete 0 true) ++
    [.checkExists true, .checkOwner true, .transact 0 true, .transact 0 true] ++
    commitAndRegister ++ [.checkLast true, .removeAllOwners true]

/-- Where no step takes owners away from a registered publisher, nothing is overtaken. -/
theorem not_overtaken {env : TextEnv} {kindOf : String → Option RegistryKind} {removal : Removal}
    {req : PublishRequest sampleSha256Hex} {groups : List String}
    {start : World sampleSha256Hex} {events : List Event}
    (h : Guarded (step env kindOf removal req groups)
      (fun w event => w.publisher = .finished true → ¬ TakesAway removal req w event) start
      events) :
    ¬ Overtaken env kindOf removal req groups start events := by
  rintro ⟨before, ok, mid, event, after, rfl, -, -, -, hfinished, htakes⟩
  rw [← List.cons_append, ← List.append_assoc, guarded_append] at h
  exact h.2.1 hfinished htakes

theorem name_kept_when_released_first :
    ((runRepublish .statement releasedFirst).deleter = .finished ∧
      existsPublished asciiEnv "npm" "left-pad"
        (runRepublish .statement releasedFirst).base.store = true ∧
      listOwners "npm" "left-pad" (runRepublish .statement releasedFirst).owners ≠ []) ∧
    (runRepublish .statement checkedAfter).deleter = .finished ∧
      existsPublished asciiEnv "npm" "left-pad"
        (runRepublish .statement checkedAfter).base.store = true ∧
      listOwners "npm" "left-pad" (runRepublish .statement checkedAfter).owners ≠ [] := by
  refine ⟨⟨by decide, ?_⟩, by decide, ?_⟩
  · refine registered_name_kept asciiEnv npmOnly .statement (leftPadWith [1]) [] oldVersion ∅
      aliceOwns 0 .isPublic "0.9.0" (some "root") (by decide) releasedFirst (not_overtaken ?_)
      (by decide)
    refine ⟨fun _ => id, fun _ => id, fun _ => id, fun _ => id, fun _ => id, fun _ => id,
      fun _ => id, fun _ => id, fun _ => id, fun _ => id, ?_, fun _ => id, fun _ => id,
      fun _ => id, trivial⟩
    intro hfinished
    exact absurd hfinished (by decide)
  · refine registered_name_kept asciiEnv npmOnly .statement (leftPadWith [1]) [] oldVersion ∅
      aliceOwns 0 .isPublic "0.9.0" (some "root") (by decide) checkedAfter (not_overtaken ?_)
      (by decide)
    refine ⟨fun _ => id, fun _ => id, fun _ => id, fun _ => id, fun _ => id, fun _ => id,
      fun _ => id, fun _ => id, fun _ => id, fun _ => id, fun _ => id, fun _ => id, fun _ => id,
      ?_, trivial⟩
    rintro - ⟨-, -, hdeleter⟩
    exact absurd hdeleter (by decide)

/-- Both calls have returned, the publish with `Ok` and its publisher registered, and the
published package has no owner. -/
def NameLost (w : World sampleSha256Hex) : Prop :=
  w.publisher = .finished true ∧ w.deleter = .finished ∧ w.publishPhase = some (.returned true) ∧
    existsPublished asciiEnv "npm" "left-pad" w.base.store = true ∧
    listOwners "npm" "left-pad" w.owners = []

/-- The owners are taken away after the publish has registered, on the word of a check made
before its commit. -/
theorem name_released_under_publisher :
    NameLost (runRepublish .statement releasedAfter) ∧
      NameLost (runRepublish .loop loopedAfter) := by
  refine ⟨⟨by decide, by decide, by decide, by decide, by decide⟩, ?_⟩
  exact ⟨by decide, by decide, by decide, by decide, by decide⟩

end Runs

end BatleHub.NameRelease
