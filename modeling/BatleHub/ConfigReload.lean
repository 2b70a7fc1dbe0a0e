import BatleHub.Lib.Fallible
import BatleHub.LocalPackages
import Mathlib.Algebra.Order.Ring.Nat

/-!
The configuration reload (`services/reload/mod.rs`, `services/reload/applier.rs`). A load
reads a config text, compares it with the last one and builds a candidate, which waits in
one slot; an apply takes the candidate out, puts it in force and writes the text an editor
submitted. Each definition is what one of them does under one lock.
-/
namespace BatleHub.ConfigReload

open LocalPackages Lib.Fallible

def PENDING_TTL_SECS : ℕ := 600

def hotReloadDisabled : String := "hot reload is disabled (BATLEHUB_DISABLE_HOT_RELOAD=1)"

inductive ReloadApplyError where
  | disabled
  | noPendingReload
  | expired
  deriving DecidableEq, Repr

inductive ReloadSource where
  | fileWatcher
  | adminRequest
  deriving DecidableEq, Repr

variable {Config Built Diff Warning : Type}

/-- What the process finds around it at one moment: the overlay files, the config loader
with the environment it expands, and the builder. -/
structure Outside (Config Built : Type) where
  read : String → Except String String
  loadLayered : List String → Except String Config
  builder : Config → Except String Built

structure ConfigReloadParams (Config Built Diff Warning : Type) where
  configOverlays : List String
  hotReloadEnabled : Bool
  warnings : Config → List Warning
  /-- `ReloadDiff::default()`. -/
  noDiff : Diff
  /-- Of the config in force and its layers against the candidate's. -/
  computeDiff : Built → List String → Built → List String → Diff

structure ReloadOutcome (Diff Warning : Type) where
  diff : Diff
  warnings : List Warning
  pendingCreated : Bool
  deriving DecidableEq

/-- What a load builds before it takes the lock of the slot. -/
structure Candidate (Built Diff Warning : Type) where
  diff : Diff
  layers : List String
  built : Built
  warnings : List Warning
  deriving DecidableEq

structure PendingReload (Built Diff Warning : Type) extends Candidate Built Diff Warning where
  createdAt : DateTime
  expiresAt : DateTime
  source : ReloadSource
  content : Option String
  deriving DecidableEq

/-- The service, the config it keeps in force and the file it was started with. -/
structure ConfigReloadService (Built Diff Warning : Type) where
  configFile : Except String String
  hot : Built
  appliedLayers : List String
  pending : Option (PendingReload Built Diff Warning)
  lastContent : Option String

section Layers

def layeredFingerprint (overlays : List String) (read : String → Except String String)
    (primary : String) : String :=
  overlays.foldl (fun out overlay => out ++ "\x00" ++
    match read overlay with
    | .ok content => content
    | .error e => "\x01unreadable: " ++ e) primary

def readOverlay (o : Outside Config Built) (overlay : String) : Except String String :=
  (o.read overlay).mapError fun e => "reading config overlay '" ++ overlay ++ "': " ++ e

/-- The config and the texts it was read from. -/
def loadLayers (overlays : List String) (o : Outside Config Built) (primary : String) :
    Except String (Config × List String) :=
  if overlays.isEmpty then (o.loadLayered [primary]).map fun config => (config, [primary])
  else do
    let contents ← overlays.mapM (readOverlay o)
    (o.loadLayered (primary :: contents)).map fun config => (config, primary :: contents)

theorem head_of_loadLayers {overlays : List String} {o : Outside Config Built} {primary : String}
    {config : Config} {layers : List String}
    (h : loadLayers overlays o primary = .ok (config, layers)) : layers.head? = some primary := by
  unfold loadLayers at h
  split at h
  · obtain ⟨loaded, -, heq⟩ := (map_eq_ok_iff _ _ _).mp h
    rw [← (Prod.mk.inj heq).2]
    rfl
  · obtain ⟨contents, -, h⟩ := (bind_eq_ok_iff _ _ _).mp h
    obtain ⟨loaded, -, heq⟩ := (map_eq_ok_iff _ _ _).mp h
    rw [← (Prod.mk.inj heq).2]
    rfl

end Layers

namespace ConfigReloadService

/-- Whether the content is that of the last load attempt, and now it is. -/
def markSeenAndCheckUnchanged (svc : ConfigReloadService Built Diff Warning) (content : String) :
    ConfigReloadService Built Diff Warning × Bool :=
  ({ svc with lastContent := some content }, decide (svc.lastContent = some content))

/-- `load_layers`, and `build_pending` up to the lock. -/
def buildCandidate (params : ConfigReloadParams Config Built Diff Warning)
    (svc : ConfigReloadService Built Diff Warning) (o : Outside Config Built) (primary : String) :
    Except String (Candidate Built Diff Warning) := do
  let (config, layers) ← loadLayers params.configOverlays o primary
  let built ← o.builder config
  pure ⟨params.computeDiff svc.hot svc.appliedLayers built layers, layers, built,
    params.warnings config⟩

/-- The end of `build_pending`: the candidate replaces what is pending. -/
def storePending (svc : ConfigReloadService Built Diff Warning) (now : DateTime)
    (source : ReloadSource) (c : Candidate Built Diff Warning) :
    ConfigReloadService Built Diff Warning :=
  { svc with
    pending := some
      { toCandidate := c
        createdAt := now
        expiresAt := now + PENDING_TTL_SECS * 10 ^ 9
        source := source
        content := none } }

/-- The end of `load_pending_from_content`: the text goes to whatever is pending by then. -/
def storeContent (svc : ConfigReloadService Built Diff Warning) (text : String) :
    ConfigReloadService Built Diff Warning :=
  { svc with pending := svc.pending.map fun p => { p with content := some text } }

def discardPending (svc : ConfigReloadService Built Diff Warning) :
    ConfigReloadService Built Diff Warning × Bool :=
  ({ svc with pending := none }, svc.pending.isSome)

def expirePendingIfStale (svc : ConfigReloadService Built Diff Warning) (now : DateTime) :
    ConfigReloadService Built Diff Warning :=
  { svc with pending := svc.pending.filter fun p => !decide (p.expiresAt < now) }

/-- The beginning of `apply`: an expired candidate is gone as well. -/
def takePending (svc : ConfigReloadService Built Diff Warning) (now : DateTime) :
    ConfigReloadService Built Diff Warning ×
      Except ReloadApplyError (PendingReload Built Diff Warning) :=
  ({ svc with pending := none },
    match svc.pending with
    | none => .error .noPendingReload
    | some p => if p.expiresAt < now then .error .expired else .ok p)

/-- The swaps of `apply`. -/
def putInForce (svc : ConfigReloadService Built Diff Warning) (c : Candidate Built Diff Warning) :
    ConfigReloadService Built Diff Warning :=
  { svc with hot := c.built, appliedLayers := c.layers }

/-- The rename happens or it does not. -/
def persistConfigToDisk (svc : ConfigReloadService Built Diff Warning) (text : String)
    (renamed : Bool) : ConfigReloadService Built Diff Warning :=
  if renamed then { svc with configFile := .ok text } else svc

/-- A candidate is what the builder makes of the config that the text and its overlays load
to. -/
theorem buildCandidate_eq_ok_iff (params : ConfigReloadParams Config Built Diff Warning)
    (svc : ConfigReloadService Built Diff Warning) (o : Outside Config Built) (primary : String)
    (c : Candidate Built Diff Warning) : svc.buildCandidate params o primary = .ok c ↔
      ∃ config, loadLayers params.configOverlays o primary = .ok (config, c.layers) ∧
        o.builder config = .ok c.built ∧ c.warnings = params.warnings config ∧
        c.diff = params.computeDiff svc.hot svc.appliedLayers c.built c.layers := by
  unfold buildCandidate
  rw [bind_eq_ok_iff]
  constructor
  · rintro ⟨⟨config, layers⟩, hload, h⟩
    obtain ⟨built, hbuild, h⟩ := (bind_eq_ok_iff _ _ _).mp h
    obtain rfl := Except.ok.inj h
    exact ⟨config, hload, hbuild, rfl, rfl⟩
  · rintro ⟨config, hload, hbuild, hwarnings, hdiff⟩
    refine ⟨(config, c.layers), hload, (bind_eq_ok_iff _ _ _).mpr ⟨c.built, hbuild, ?_⟩⟩
    rw [← hwarnings, ← hdiff]
    rfl

end ConfigReloadService

end BatleHub.ConfigReload
