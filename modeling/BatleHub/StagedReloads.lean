import BatleHub.ConfigReload
import BatleHub.Lib.Runs
import Mathlib.Data.List.Infix
import Mathlib.Logic.Function.Basic

/-!
Any number of loads and applies on one reload service, each cut where it waits. The slot
holds one candidate, and an editor's load comes to it twice: with the candidate, and later
with the text, which it gives to the candidate it finds. Between the two no other load may
store one.
-/
namespace BatleHub.StagedReloads

open LocalPackages ConfigReload Lib.Runs

variable {Config Built Diff Warning : Type}

section Calls

/-- A text to load: `load_pending` reads it from the file, `load_pending_from_content` is
given it. -/
structure LoadRequest where
  fromContent : Bool
  source : ReloadSource
  text : String

inductive Load (Built Diff Warning : Type) where
  | idle
  | requested (r : LoadRequest)
  | unchanged (r : LoadRequest)
  | changed (r : LoadRequest)
  | built (r : LoadRequest) (c : Candidate Built Diff Warning)
  /-- The candidate of an editor's load is pending, its text is not stored yet. -/
  | stored (text : String) (outcome : ReloadOutcome Diff Warning)
  | loaded (result : Except String Diff)
  | answered (result : Except String (ReloadOutcome Diff Warning))

/-- What one load does up to its next wait. -/
inductive LoadStep (Config Built : Type) where
  | loadPending (source : ReloadSource)
  | loadPendingFromContent (content : String) (source : ReloadSource)
  | markSeen (o : Outside Config Built)
  | rereadWarnings (o : Outside Config Built)
  | build (o : Outside Config Built)
  | store (now : DateTime)
  | storeContent

inductive Apply (Built Diff Warning : Type) where
  | idle
  | taken (p : PendingReload Built Diff Warning)
  | inForce (p : PendingReload Built Diff Warning)
  | applied (result : Except ReloadApplyError Diff)

inductive ApplyStep where
  | take (now : DateTime)
  | putInForce
  | persist (renamed : Bool)

/-- A step of one of the calls, or of the operator on the config file. -/
inductive Event (Config Built : Type) where
  | load (i : ℕ) (a : LoadStep Config Built)
  | apply (j : ℕ) (a : ApplyStep)
  | discard
  | expire (now : DateTime)
  | edit (file : Except String String)

structure Traffic (Built Diff Warning : Type) where
  service : ConfigReloadService Built Diff Warning
  loads : ℕ → Load Built Diff Warning
  applies : ℕ → Apply Built Diff Warning

/-- No call is under way and nothing is pending. -/
structure Traffic.Fresh (t : Traffic Built Diff Warning) : Prop where
  pending : t.service.pending = none
  loads : ∀ i, t.loads i = .idle
  applies : ∀ j, t.applies j = .idle

variable (params : ConfigReloadParams Config Built Diff Warning)

def LoadRequest.failed (r : LoadRequest) (e : String) : Load Built Diff Warning :=
  if r.fromContent then .answered (.error e) else .loaded (.error e)

def requestFile (svc : ConfigReloadService Built Diff Warning) (source : ReloadSource) :
    Load Built Diff Warning :=
  if params.hotReloadEnabled then
    match svc.configFile with
    | .ok text => .requested ⟨false, source, text⟩
    | .error e => .loaded (.error e)
  else .loaded (.error hotReloadDisabled)

def requestContent (content : String) (source : ReloadSource) : Load Built Diff Warning :=
  if params.hotReloadEnabled then .requested ⟨true, source, content⟩
  else .answered (.error hotReloadDisabled)

/-- `mark_seen_and_check_unchanged`, and where the load goes from there. -/
def markSeen (svc : ConfigReloadService Built Diff Warning) (o : Outside Config Built)
    (r : LoadRequest) : ConfigReloadService Built Diff Warning × Load Built Diff Warning :=
  let (svc, unchanged) :=
    svc.markSeenAndCheckUnchanged (layeredFingerprint params.configOverlays o.read r.text)
  if unchanged then (svc, if r.fromContent then .unchanged r else .loaded (.ok params.noDiff))
  else (svc, .changed r)

/-- The submitted text's warnings, and that nothing was staged. -/
def unstagedOutcome (o : Outside Config Built) (r : LoadRequest) :
    Except String (ReloadOutcome Diff Warning) :=
  (loadLayers params.configOverlays o r.text).map fun loaded =>
    ⟨params.noDiff, params.warnings loaded.1, false⟩

def buildCandidate (svc : ConfigReloadService Built Diff Warning) (o : Outside Config Built)
    (r : LoadRequest) : Load Built Diff Warning :=
  match svc.buildCandidate params o r.text with
  | .ok c => .built r c
  | .error e => r.failed e

def afterStore (r : LoadRequest) (c : Candidate Built Diff Warning) : Load Built Diff Warning :=
  if r.fromContent then .stored r.text ⟨c.diff, c.warnings, true⟩ else .loaded (.ok c.diff)

/-- A load that is not where the step begins stays as it is. -/
def loadStep (svc : ConfigReloadService Built Diff Warning) :
    Load Built Diff Warning → LoadStep Config Built →
      ConfigReloadService Built Diff Warning × Load Built Diff Warning
  | .idle, .loadPending source => (svc, requestFile params svc source)
  | .idle, .loadPendingFromContent content source => (svc, requestContent params content source)
  | .requested r, .markSeen o => markSeen params svc o r
  | .unchanged r, .rereadWarnings o => (svc, .answered (unstagedOutcome params o r))
  | .changed r, .build o => (svc, buildCandidate params svc o r)
  | .built r c, .store now => (svc.storePending now r.source c, afterStore r c)
  | .stored text outcome, .storeContent => (svc.storeContent text, .answered (.ok outcome))
  | l, _ => (svc, l)

def takePending (svc : ConfigReloadService Built Diff Warning) (now : DateTime) :
    ConfigReloadService Built Diff Warning × Apply Built Diff Warning :=
  if params.hotReloadEnabled then
    match svc.takePending now with
    | (svc, .ok p) => (svc, .taken p)
    | (svc, .error e) => (svc, .applied (.error e))
  else (svc, .applied (.error .disabled))

/-- A candidate from the file carries no text to write. -/
def persistContent (svc : ConfigReloadService Built Diff Warning)
    (p : PendingReload Built Diff Warning) (renamed : Bool) :
    ConfigReloadService Built Diff Warning :=
  match p.content with
  | some text => svc.persistConfigToDisk text renamed
  | none => svc

def applyStep (svc : ConfigReloadService Built Diff Warning) :
    Apply Built Diff Warning → ApplyStep →
      ConfigReloadService Built Diff Warning × Apply Built Diff Warning
  | .idle, .take now => takePending params svc now
  | .taken p, .putInForce => (svc.putInForce p.toCandidate, .inForce p)
  | .inForce p, .persist renamed => (persistContent svc p renamed, .applied (.ok p.diff))
  | a, _ => (svc, a)

def step (t : Traffic Built Diff Warning) : Event Config Built → Traffic Built Diff Warning
  | .load i a =>
    let (svc, l) := loadStep params t.service (t.loads i) a
    { t with service := svc, loads := Function.update t.loads i l }
  | .apply j a =>
    let (svc, l) := applyStep params t.service (t.applies j) a
    { t with service := svc, applies := Function.update t.applies j l }
  | .discard => { t with service := t.service.discardPending.1 }
  | .expire now => { t with service := t.service.expirePendingIfStale now }
  | .edit file => { t with service := { t.service with configFile := file } }

end Calls

section Steps

variable {params : ConfigReloadParams Config Built Diff Warning}

def Load.isBuilt : Load Built Diff Warning → Bool
  | .built _ _ => true
  | _ => false

def Load.isStored : Load Built Diff Warning → Bool
  | .stored _ _ => true
  | _ => false

/-- The load holds no candidate and has none of its own pending. -/
structure Load.Quiet (l : Load Built Diff Warning) : Prop where
  built : l.isBuilt = false
  stored : l.isStored = false

theorem failed_quiet (r : LoadRequest) (e : String) :
    (r.failed e : Load Built Diff Warning).Quiet := by
  unfold LoadRequest.failed
  split <;> exact ⟨rfl, rfl⟩

theorem requestFile_quiet (svc : ConfigReloadService Built Diff Warning) (source : ReloadSource) :
    (requestFile params svc source).Quiet := by
  unfold requestFile
  split
  · split <;> exact ⟨rfl, rfl⟩
  · exact ⟨rfl, rfl⟩

theorem requestContent_quiet (content : String) (source : ReloadSource) :
    (requestContent params content source).Quiet := by
  unfold requestContent
  split <;> exact ⟨rfl, rfl⟩

theorem markSeen_quiet (svc : ConfigReloadService Built Diff Warning) (o : Outside Config Built)
    (r : LoadRequest) : (markSeen params svc o r).1.pending = svc.pending ∧
      (markSeen params svc o r).2.Quiet := by
  unfold markSeen ConfigReloadService.markSeenAndCheckUnchanged
  dsimp only
  split
  · refine ⟨rfl, ?_⟩
    dsimp only
    split <;> exact ⟨rfl, rfl⟩
  · exact ⟨rfl, rfl, rfl⟩

/-- A load builds its candidate in one step and reaches the slot in two more. -/
theorem loadStep_cases (params : ConfigReloadParams Config Built Diff Warning)
    (svc : ConfigReloadService Built Diff Warning) (l : Load Built Diff Warning) (a : LoadStep Config Built) :
    (∃ r o c, l = .changed r ∧ a = .build o ∧ svc.buildCandidate params o r.text = .ok c ∧
      loadStep params svc l a = (svc, .built r c)) ∨
    (∃ r c now, l = .built r c ∧ a = .store now ∧
      loadStep params svc l a = (svc.storePending now r.source c, afterStore r c)) ∨
    (∃ text outcome, l = .stored text outcome ∧ a = .storeContent ∧
      loadStep params svc l a = (svc.storeContent text, .answered (.ok outcome))) ∨
    ((loadStep params svc l a).1.pending = svc.pending ∧
      ((loadStep params svc l a).2 = l ∨ (loadStep params svc l a).2.Quiet)) := by
  unfold loadStep
  split
  · exact .inr (.inr (.inr ⟨rfl, .inr (requestFile_quiet svc _)⟩))
  · exact .inr (.inr (.inr ⟨rfl, .inr (requestContent_quiet _ _)⟩))
  · exact .inr (.inr (.inr ((markSeen_quiet svc _ _).imp_right .inr)))
  · exact .inr (.inr (.inr ⟨rfl, .inr ⟨rfl, rfl⟩⟩))
  · rename_i r o
    unfold buildCandidate
    split
    · rename_i c hc
      exact .inl ⟨r, o, c, rfl, rfl, hc, rfl⟩
    · exact .inr (.inr (.inr ⟨rfl, .inr (failed_quiet r _)⟩))
  · exact .inr (.inl ⟨_, _, _, rfl, rfl, rfl⟩)
  · exact .inr (.inr (.inl ⟨_, _, rfl, rfl, rfl⟩))
  · exact .inr (.inr (.inr ⟨rfl, .inl rfl⟩))

/-- An apply takes the candidate out of the slot and carries it to the end. -/
theorem applyStep_cases (params : ConfigReloadParams Config Built Diff Warning)
    (svc : ConfigReloadService Built Diff Warning) (a : Apply Built Diff Warning) (b : ApplyStep) :
    (∃ p, svc.pending = some p ∧ (applyStep params svc a b).1.pending = none ∧
      (applyStep params svc a b).2 = .taken p) ∨
    (∃ p, a = .taken p ∧ b = .putInForce ∧
      applyStep params svc a b = (svc.putInForce p.toCandidate, .inForce p)) ∨
    (((applyStep params svc a b).1.pending = svc.pending ∨
        (applyStep params svc a b).1.pending = none) ∧
      ((applyStep params svc a b).2 = a ∨
        ∃ result, (applyStep params svc a b).2 = .applied result)) := by
  unfold applyStep
  split
  · rename_i now
    unfold takePending ConfigReloadService.takePending
    split
    · cases hpending : svc.pending with
      | none => exact .inr (.inr ⟨.inr rfl, .inr ⟨_, rfl⟩⟩)
      | some p =>
        dsimp only
        by_cases hexpired : p.expiresAt < now
        · rw [if_pos hexpired]
          exact .inr (.inr ⟨.inr rfl, .inr ⟨_, rfl⟩⟩)
        · rw [if_neg hexpired]
          exact .inl ⟨p, rfl, rfl, rfl⟩
    · exact .inr (.inr ⟨.inl rfl, .inr ⟨_, rfl⟩⟩)
  · exact .inr (.inl ⟨_, rfl, rfl, rfl⟩)
  · rename_i p renamed
    refine .inr (.inr ⟨.inl ?_, .inr ⟨_, rfl⟩⟩)
    unfold persistContent ConfigReloadService.persistConfigToDisk
    cases p.content with
    | none => rfl
    | some text => cases renamed <;> rfl
  · exact .inr (.inr ⟨.inl rfl, .inl rfl⟩)

end Steps

section Texts

variable (params : ConfigReloadParams Config Built Diff Warning)
  (met : Outside Config Built → Prop)

/-- In one of these surroundings the text, with its overlays, loads and builds to the
candidate. -/
def BuiltFrom (text : String) (c : Candidate Built Diff Warning) : Prop :=
  ∃ o config, met o ∧ loadLayers params.configOverlays o text = .ok (config, c.layers) ∧
    o.builder config = .ok c.built

/-- Every text is beside the candidate it was built to. -/
structure Traced (t : Traffic Built Diff Warning) : Prop where
  built : ∀ i r c, t.loads i = .built r c → BuiltFrom params met r.text c
  stored : ∀ i text outcome, t.loads i = .stored text outcome → ∀ p,
    t.service.pending = some p → BuiltFrom params met text p.toCandidate
  pending : ∀ p text, t.service.pending = some p → p.content = some text →
    BuiltFrom params met text p.toCandidate
  taken : ∀ j p text, t.applies j = .taken p → p.content = some text →
    BuiltFrom params met text p.toCandidate
  inForce : ∀ j p text, t.applies j = .inForce p → p.content = some text →
    BuiltFrom params met text p.toCandidate

/-- No load stores its candidate while another has stored its candidate and not its text. -/
def Unmixed (t : Traffic Built Diff Warning) : Event Config Built → Prop
  | .load i (.store _) => (t.loads i).isBuilt = true → ∀ j, (t.loads j).isStored = false
  | _ => True

def Event.Meets : Event Config Built → Prop
  | .load _ (.build o) => met o
  | _ => True

variable {params} {met}

theorem traced_of_fresh {t : Traffic Built Diff Warning} (h : t.Fresh) : Traced params met t where
  built := by
    intro i r c hi
    rw [h.loads] at hi
    cases hi
  stored := by
    intro i text outcome hi
    rw [h.loads] at hi
    cases hi
  pending := by
    intro p text hp
    rw [h.pending] at hp
    cases hp
  taken := by
    intro j p text hj
    rw [h.applies] at hj
    cases hj
  inForce := by
    intro j p text hj
    rw [h.applies] at hj
    cases hj

/-- With the slot emptied or left alone, the loads and applies decide. -/
theorem Traced.of_pending {t : Traffic Built Diff Warning} (h : Traced params met t)
    {svc : ConfigReloadService Built Diff Warning}
    (hsvc : ∀ p, svc.pending = some p → t.service.pending = some p) :
    Traced params met { t with service := svc } where
  built := h.built
  stored := fun i text outcome hi p hp => h.stored i text outcome hi p (hsvc p hp)
  pending := fun p text hp => h.pending p text (hsvc p hp)
  taken := h.taken
  inForce := h.inForce

/-- A load goes on to where it vouches for nothing new. -/
theorem Traced.set_load {t : Traffic Built Diff Warning} (h : Traced params met t) (i : ℕ)
    {l : Load Built Diff Warning}
    (hbuilt : ∀ r c, l = .built r c → BuiltFrom params met r.text c)
    (hstored : ∀ text outcome, l = .stored text outcome → ∀ p, t.service.pending = some p →
      BuiltFrom params met text p.toCandidate) :
    Traced params met { t with loads := Function.update t.loads i l } where
  built := by
    intro k r c hk
    by_cases hki : k = i
    · subst hki
      exact hbuilt r c ((Function.update_self k l t.loads).symm.trans hk)
    · exact h.built k r c ((Function.update_of_ne hki l t.loads).symm.trans hk)
  stored := by
    intro k text outcome hk
    by_cases hki : k = i
    · subst hki
      exact hstored text outcome ((Function.update_self k l t.loads).symm.trans hk)
    · exact h.stored k text outcome ((Function.update_of_ne hki l t.loads).symm.trans hk)
  pending := h.pending
  taken := h.taken
  inForce := h.inForce

theorem Traced.set_apply {t : Traffic Built Diff Warning} (h : Traced params met t) (j : ℕ)
    {a : Apply Built Diff Warning}
    (ha : ∀ p text, a = .taken p ∨ a = .inForce p → p.content = some text →
      BuiltFrom params met text p.toCandidate) :
    Traced params met { t with applies := Function.update t.applies j a } where
  built := h.built
  stored := h.stored
  pending := h.pending
  taken := by
    intro k p text hk
    by_cases hkj : k = j
    · subst hkj
      exact ha p text (.inl ((Function.update_self k a t.applies).symm.trans hk))
    · exact h.taken k p text ((Function.update_of_ne hkj a t.applies).symm.trans hk)
  inForce := by
    intro k p text hk
    by_cases hkj : k = j
    · subst hkj
      exact ha p text (.inr ((Function.update_self k a t.applies).symm.trans hk))
    · exact h.inForce k p text ((Function.update_of_ne hkj a t.applies).symm.trans hk)

theorem not_built_of_quiet {l : Load Built Diff Warning} (h : l.Quiet) (r : LoadRequest)
    (c : Candidate Built Diff Warning) : l ≠ .built r c := by
  rintro rfl
  cases h.built

theorem not_stored_of_quiet {l : Load Built Diff Warning} (h : l.Quiet) (text : String)
    (outcome : ReloadOutcome Diff Warning) : l ≠ .stored text outcome := by
  rintro rfl
  cases h.stored

theorem afterStore_not_built (r : LoadRequest) (c : Candidate Built Diff Warning)
    (r' : LoadRequest) (c' : Candidate Built Diff Warning) : afterStore r c ≠ .built r' c' := by
  unfold afterStore
  split <;> nofun

theorem text_of_afterStore {r : LoadRequest} {c : Candidate Built Diff Warning} {text : String}
    {outcome : ReloadOutcome Diff Warning} (h : afterStore r c = .stored text outcome) :
    text = r.text := by
  unfold afterStore at h
  split at h
  · exact (Load.stored.inj h).1.symm
  · cases h

/-- The candidate in the slot is new, and nobody is about to give it a text but the load it
came from. -/
theorem traced_store {t : Traffic Built Diff Warning} (h : Traced params met t) {i : ℕ}
    {r : LoadRequest} {c : Candidate Built Diff Warning} (now : DateTime)
    (hi : t.loads i = .built r c) (halone : ∀ j, (t.loads j).isStored = false) :
    Traced params met
      { t with
        service := t.service.storePending now r.source c
        loads := Function.update t.loads i (afterStore r c) } := by
  have hslot : Traced params met { t with service := t.service.storePending now r.source c } := by
    refine ⟨h.built, ?_, ?_, h.taken, h.inForce⟩
    · intro k text outcome hk
      have hnone := halone k
      rw [show t.loads k = .stored text outcome from hk] at hnone
      cases hnone
    · intro p text hp hcontent
      obtain rfl := Option.some.inj hp
      cases hcontent
  refine hslot.set_load i (fun r' c' hl => absurd hl (afterStore_not_built r c r' c')) ?_
  intro text outcome hl p hp
  obtain rfl := Option.some.inj hp
  rw [text_of_afterStore hl]
  exact h.built i r c hi

theorem traced_storeContent {t : Traffic Built Diff Warning} (h : Traced params met t) {i : ℕ}
    {text : String} {outcome : ReloadOutcome Diff Warning}
    (hi : t.loads i = .stored text outcome) (result : Except String (ReloadOutcome Diff Warning)) :
    Traced params met
      { t with
        service := t.service.storeContent text
        loads := Function.update t.loads i (.answered result) } := by
  have hslot : Traced params met { t with service := t.service.storeContent text } := by
    refine ⟨h.built, ?_, ?_, h.taken, h.inForce⟩
    · intro k text' outcome' hk p hp
      obtain ⟨q, hq, rfl⟩ := Option.map_eq_some_iff.mp hp
      exact h.stored k text' outcome' hk q hq
    · intro p text' hp hcontent
      obtain ⟨q, hq, rfl⟩ := Option.map_eq_some_iff.mp hp
      obtain rfl : text = text' := Option.some.inj hcontent
      exact h.stored i text outcome hi q hq
  exact hslot.set_load i nofun nofun

theorem step_load (t : Traffic Built Diff Warning) (i : ℕ) (a : LoadStep Config Built) :
    step params t (.load i a) =
      { t with
        service := (loadStep params t.service (t.loads i) a).1
        loads := Function.update t.loads i (loadStep params t.service (t.loads i) a).2 } := rfl

theorem step_apply (t : Traffic Built Diff Warning) (j : ℕ) (b : ApplyStep) :
    step params t (.apply j b) =
      { t with
        service := (applyStep params t.service (t.applies j) b).1
        applies := Function.update t.applies j (applyStep params t.service (t.applies j) b).2 } :=
  rfl

theorem traced_load {t : Traffic Built Diff Warning} (h : Traced params met t) (i : ℕ)
    (a : LoadStep Config Built) (hguard : Unmixed t (.load i a))
    (hmet : (Event.load i a).Meets met) : Traced params met (step params t (.load i a)) := by
  rw [step_load]
  rcases loadStep_cases params t.service (t.loads i) a with
    ⟨r, o, c, hi, rfl, hc, hstep⟩ | ⟨r, c, now, hi, rfl, hstep⟩ |
      ⟨text, outcome, hi, rfl, hstep⟩ | ⟨hpending, hload⟩
  · rw [hstep]
    refine h.set_load i ?_ nofun
    intro r' c' hl
    obtain ⟨rfl, rfl⟩ := Load.built.inj hl
    obtain ⟨config, hlayers, hbuilt, -⟩ :=
      (ConfigReloadService.buildCandidate_eq_ok_iff params t.service o r.text c).mp hc
    exact ⟨o, config, hmet, hlayers, hbuilt⟩
  · rw [hstep]
    refine traced_store h now hi (hguard ?_)
    rw [hi]
    rfl
  · rw [hstep]
    exact traced_storeContent h hi _
  · have hslot := h.of_pending fun p hp => hpending ▸ hp
    refine hslot.set_load i ?_ ?_
    · intro r c hl
      rcases hload with hsame | hquiet
      · exact h.built i r c (hsame.symm.trans hl)
      · exact absurd hl (not_built_of_quiet hquiet r c)
    · intro text outcome hl
      rcases hload with hsame | hquiet
      · exact hslot.stored i text outcome (hsame.symm.trans hl)
      · exact absurd hl (not_stored_of_quiet hquiet text outcome)

theorem traced_apply {t : Traffic Built Diff Warning} (h : Traced params met t) (j : ℕ)
    (b : ApplyStep) : Traced params met (step params t (.apply j b)) := by
  rw [step_apply]
  rcases applyStep_cases params t.service (t.applies j) b with
    ⟨p, hp, hnone, hstep⟩ | ⟨p, hj, rfl, hstep⟩ | ⟨hpending, happly⟩
  · have hslot : Traced params met
        { t with service := (applyStep params t.service (t.applies j) b).1 } :=
      h.of_pending fun q hq => by rw [hnone] at hq; cases hq
    refine hslot.set_apply j ?_
    intro q text hq hcontent
    rw [hstep] at hq
    rcases hq with hq | hq
    · obtain rfl := Apply.taken.inj hq
      exact h.pending p text hp hcontent
    · cases hq
  · rw [hstep]
    have hslot : Traced params met
        { t with service := t.service.putInForce p.toCandidate } := h.of_pending fun q hq => hq
    refine hslot.set_apply j ?_
    intro q text hq hcontent
    rcases hq with hq | hq
    · cases hq
    · obtain rfl := Apply.inForce.inj hq
      exact h.taken j p text hj hcontent
  · have hslot : Traced params met
        { t with service := (applyStep params t.service (t.applies j) b).1 } := by
      refine h.of_pending fun q hq => ?_
      rcases hpending with hsame | hnone
      · exact hsame ▸ hq
      · rw [hnone] at hq
        cases hq
    refine hslot.set_apply j ?_
    intro q text hq hcontent
    rcases happly with hsame | ⟨result, happlied⟩
    · rw [hsame] at hq
      exact hq.elim (fun hj => h.taken j q text hj hcontent)
        fun hj => h.inForce j q text hj hcontent
    · rw [happlied] at hq
      rcases hq with hq | hq <;> cases hq

theorem traced_step {t : Traffic Built Diff Warning} (h : Traced params met t)
    (e : Event Config Built) (hguard : Unmixed t e) (hmet : e.Meets met) :
    Traced params met (step params t e) := by
  cases e with
  | load i a => exact traced_load h i a hguard hmet
  | apply j b => exact traced_apply h j b
  | discard => exact h.of_pending nofun
  | expire now => exact h.of_pending fun p hp => (Option.filter_eq_some_iff.mp hp).1
  | edit file => exact h.of_pending fun p hp => hp

/-- In every run without mixing, what an apply is about to write was built to what it
carries. -/
theorem traced_run {t : Traffic Built Diff Warning} (h : Traced params met t)
    (events : List (Event Config Built)) (hguard : Guarded (step params) Unmixed t events)
    (hmet : ∀ e ∈ events, e.Meets met) : Traced params met (run (step params) t events) := by
  refine run_keeps (fun t e => Unmixed t e ∧ e.Meets met) (Traced params met)
    (fun t e ht he => traced_step ht e he.1 he.2) t events h ?_
  exact guarded_and_forall Unmixed (·.Meets met) t events hguard hmet

end Texts

section Writes

variable {params : ConfigReloadParams Config Built Diff Warning}

theorem inForce_of_applyStep {svc : ConfigReloadService Built Diff Warning}
    {a : Apply Built Diff Warning} {b : ApplyStep} {p : PendingReload Built Diff Warning}
    (h : (applyStep params svc a b).2 = .inForce p) : a = .inForce p ∨
      b = .putInForce ∧ (applyStep params svc a b).1 = svc.putInForce p.toCandidate := by
  rcases applyStep_cases params svc a b with
    ⟨q, -, -, hstep⟩ | ⟨q, -, hb, hstep⟩ | ⟨-, hsame | ⟨result, hdone⟩⟩
  · rw [hstep] at h
    cases h
  · rw [hstep] at h
    obtain rfl := Apply.inForce.inj h
    exact .inr ⟨hb, congrArg Prod.fst hstep⟩
  · exact .inl (hsame.symm.trans h)
  · rw [hdone] at h
    cases h

theorem inForce_of_step {t : Traffic Built Diff Warning} {e : Event Config Built} {j : ℕ}
    {p : PendingReload Built Diff Warning} (h : (step params t e).applies j = .inForce p) :
    t.applies j = .inForce p ∨ e = .apply j .putInForce ∧
      (step params t e).service.hot = p.built ∧
        (step params t e).service.appliedLayers = p.layers := by
  cases e with
  | load i a => exact .inl h
  | apply k b =>
    rw [step_apply] at h ⊢
    by_cases hjk : j = k
    · subst hjk
      rcases inForce_of_applyStep ((Function.update_self j _ t.applies).symm.trans h) with
        hold | ⟨rfl, hsvc⟩
      · exact .inl hold
      · refine .inr ⟨rfl, ?_⟩
        dsimp only
        rw [hsvc]
        exact ⟨rfl, rfl⟩
    · exact .inl ((Function.update_of_ne hjk _ t.applies).symm.trans h)
  | discard => exact .inl h
  | expire now => exact .inl h
  | edit file => exact .inl h

variable (params)

/-- The apply has put the candidate in force at some point of the run. -/
def PutInForce (start : Traffic Built Diff Warning) (events : List (Event Config Built)) (j : ℕ)
    (c : Candidate Built Diff Warning) : Prop :=
  ∃ earlier, earlier ++ [Event.apply j .putInForce] <+: events ∧
    (run (step params) start (earlier ++ [Event.apply j .putInForce])).service.hot = c.built ∧
    (run (step params) start (earlier ++ [Event.apply j .putInForce])).service.appliedLayers = c.layers

/-- One of the loads of the run built the text to the candidate. -/
def BuiltIn (events : List (Event Config Built)) (text : String)
    (c : Candidate Built Diff Warning) : Prop :=
  BuiltFrom params (fun o => ∃ i, Event.load i (.build o) ∈ events) text c

variable {params}

theorem putInForce_of_inForce {start : Traffic Built Diff Warning} (hstart : start.Fresh)
    (events : List (Event Config Built)) {j : ℕ} {p : PendingReload Built Diff Warning}
    (h : (run (step params) start events).applies j = .inForce p) :
    PutInForce params start events j p.toCandidate := by
  induction events using List.reverseRecOn with
  | nil =>
    rw [show (run (step params) start []).applies j = .idle from hstart.applies j] at h
    cases h
  | append_singleton before e ih =>
    have hlast : run (step params) start (before ++ [e]) =
        step params (run (step params) start before) e := run_append start before [e]
    rw [hlast] at h
    rcases inForce_of_step h with hold | ⟨rfl, hhot, hlayers⟩
    · obtain ⟨earlier, hprefix, hearlier⟩ := ih hold
      exact ⟨earlier, hprefix.trans (List.prefix_append before [e]), hearlier⟩
    · refine ⟨before, List.prefix_rfl, ?_, ?_⟩
      · rw [hlast]
        exact hhot
      · rw [hlast]
        exact hlayers

theorem builtIn_of_inForce {start : Traffic Built Diff Warning} (hstart : start.Fresh)
    {events : List (Event Config Built)} (hguard : Guarded (step params) Unmixed start events)
    {j : ℕ} {p : PendingReload Built Diff Warning} {text : String}
    (h : (run (step params) start events).applies j = .inForce p)
    (hcontent : p.content = some text) : BuiltIn params events text p.toCandidate := by
  refine (traced_run (traced_of_fresh hstart) events hguard ?_).inForce j p text h hcontent
  intro e he
  cases e with
  | load i a =>
    cases a with
    | build o => exact ⟨i, he⟩
    | _ => trivial
  | _ => trivial

theorem configFile_persist {t : Traffic Built Diff Warning} {j : ℕ}
    {p : PendingReload Built Diff Warning} {text : String} (h : t.applies j = .inForce p)
    (hcontent : p.content = some text) :
    (step params t (.apply j (.persist true))).service.configFile = .ok text := by
  rw [step_apply, h]
  show (persistContent t.service p true).configFile = .ok text
  unfold persistContent
  rw [hcontent]
  rfl

end Writes

section Staging

variable {params : ConfigReloadParams Config Built Diff Warning}

def Event.IsOf (i : ℕ) (e : Event Config Built) : Prop := ∃ a, e = .load i a

/-- The step has nothing to do with the pending candidate. -/
def Event.KeepsSlot : Event Config Built → Prop
  | .load _ (.store _) => False
  | .load _ .storeContent => False
  | .apply _ (.take _) => False
  | .discard => False
  | .expire _ => False
  | _ => True

/-- The request's candidate is pending until `now` and ten minutes. -/
structure Pends (svc : ConfigReloadService Built Diff Warning) (r : LoadRequest)
    (layers : List String) (built : Built) (now : DateTime) (content : Option String) : Prop where
  pending : ∃ p, svc.pending = some p ∧ p.layers = layers ∧ p.built = built ∧
    p.source = r.source ∧ p.expiresAt = now + PENDING_TTL_SECS * 10 ^ 9 ∧ p.content = content
  layers : layers.head? = some r.text

theorem loads_step_of_not_isOf {t : Traffic Built Diff Warning} {e : Event Config Built} {i : ℕ}
    (h : ¬ e.IsOf i) : (step params t e).loads i = t.loads i := by
  cases e with
  | load k a =>
    rw [step_load]
    refine Function.update_of_ne (fun hik => h ⟨a, ?_⟩) _ t.loads
    rw [hik]
  | _ => rfl

/-- The other calls leave a load where it is. -/
theorem loads_run_of_not_isOf (params : ConfigReloadParams Config Built Diff Warning)
    (t : Traffic Built Diff Warning) {events : List (Event Config Built)}
    {i : ℕ} (h : ∀ e ∈ events, ¬ e.IsOf i) :
    (run (step params) t events).loads i = t.loads i :=
  run_keeps_of_forall (¬ ·.IsOf i) (fun u => u.loads i = t.loads i)
    (fun _ _ hu he => (loads_step_of_not_isOf he).trans hu) t events rfl h

theorem pending_step_of_keepsSlot {t : Traffic Built Diff Warning} {e : Event Config Built}
    (h : e.KeepsSlot) : (step params t e).service.pending = t.service.pending := by
  cases e with
  | load i a =>
    rw [step_load]
    rcases loadStep_cases params t.service (t.loads i) a with
      ⟨r, o, c, -, -, -, hstep⟩ | ⟨r, c, now, -, rfl, -⟩ | ⟨text, outcome, -, rfl, -⟩ | ⟨hsame, -⟩
    · rw [hstep]
    · exact h.elim
    · exact h.elim
    · exact hsame
  | apply j b =>
    rw [step_apply]
    cases b with
    | take now => exact h.elim
    | putInForce =>
      cases t.applies j <;> rfl
    | persist renamed =>
      cases t.applies j with
      | inForce p =>
        show (persistContent t.service p renamed).pending = _
        unfold persistContent ConfigReloadService.persistConfigToDisk
        cases p.content with
        | none => rfl
        | some text => cases renamed <;> rfl
      | _ => rfl
  | discard => exact h.elim
  | expire now => exact h.elim
  | edit file => rfl

theorem pending_run_of_keepsSlot (params : ConfigReloadParams Config Built Diff Warning)
    (t : Traffic Built Diff Warning) {events : List (Event Config Built)} (h : ∀ e ∈ events, e.KeepsSlot) :
    (run (step params) t events).service.pending = t.service.pending :=
  run_keeps_of_forall (·.KeepsSlot) (fun u => u.service.pending = t.service.pending)
    (fun _ _ hu he => (pending_step_of_keepsSlot he).trans hu) t events rfl h

theorem loads_of_loadStep {t : Traffic Built Diff Warning} {i : ℕ} {a : LoadStep Config Built}
    {l : Load Built Diff Warning} (h : (loadStep params t.service (t.loads i) a).2 = l) :
    (step params t (.load i a)).loads i = l := by
  rw [step_load]
  exact (Function.update_self i _ t.loads).trans h

theorem store_of_built {t : Traffic Built Diff Warning} {i : ℕ} {r : LoadRequest}
    {c : Candidate Built Diff Warning} (h : t.loads i = .built r c) (now : DateTime) :
    (step params t (.load i (.store now))).service = t.service.storePending now r.source c ∧
      (step params t (.load i (.store now))).loads i = afterStore r c := by
  refine ⟨?_, loads_of_loadStep ?_⟩
  · rw [step_load, h]
    rfl
  · rw [h]
    rfl

theorem storeContent_of_stored {t : Traffic Built Diff Warning} {i : ℕ} {text : String}
    {outcome : ReloadOutcome Diff Warning} (h : t.loads i = .stored text outcome) :
    (step params t (.load i .storeContent)).service = t.service.storeContent text := by
  rw [step_load, h]
  rfl

/-- Content that is not that of the last attempt is loaded, whatever became of it before. -/
theorem changed_of_new {t : Traffic Built Diff Warning} {i : ℕ} {r : LoadRequest}
    {o : Outside Config Built} (h : t.loads i = .requested r)
    (hnew : t.service.lastContent ≠ some (layeredFingerprint params.configOverlays o.read r.text)) :
    (step params t (.load i (.markSeen o))).loads i = .changed r := by
  apply loads_of_loadStep
  rw [h]
  show (markSeen params t.service o r).2 = _
  unfold markSeen ConfigReloadService.markSeenAndCheckUnchanged
  dsimp only
  rw [decide_eq_false hnew]
  rfl

/-- The content of the last attempt is not. -/
theorem unstaged_of_seen {t : Traffic Built Diff Warning} {i : ℕ} {r : LoadRequest}
    {o : Outside Config Built} (h : t.loads i = .requested r)
    (hseen : t.service.lastContent =
      some (layeredFingerprint params.configOverlays o.read r.text)) :
    (step params t (.load i (.markSeen o))).service.pending = t.service.pending ∧
      (step params t (.load i (.markSeen o))).loads i =
        if r.fromContent then .unchanged r else .loaded (.ok params.noDiff) := by
  constructor
  · rw [step_load, h]
    exact (markSeen_quiet t.service o r).1
  · apply loads_of_loadStep
    rw [h]
    show (markSeen params t.service o r).2 = _
    unfold markSeen ConfigReloadService.markSeenAndCheckUnchanged
    dsimp only
    rw [decide_eq_true hseen]
    rfl

/-- An editor is told of its text that nothing was staged. -/
theorem answered_of_unchanged {t : Traffic Built Diff Warning} {i : ℕ} {r : LoadRequest}
    (h : t.loads i = .unchanged r) {others : List (Event Config Built)}
    (hothers : ∀ e ∈ others, ¬ e.IsOf i) (o : Outside Config Built) :
    (run (step params) t (others ++ [Event.load i (.rereadWarnings o)])).loads i =
      .answered (unstagedOutcome params o r) := by
  rw [run_append]
  apply loads_of_loadStep
  rw [loads_run_of_not_isOf params t hothers, h]
  rfl

theorem built_of_changed {t : Traffic Built Diff Warning} {i : ℕ} {r : LoadRequest}
    {o : Outside Config Built} {config : Config} {layers : List String} {built : Built}
    (h : t.loads i = .changed r)
    (hload : loadLayers params.configOverlays o r.text = .ok (config, layers))
    (hbuild : o.builder config = .ok built) :
    ∃ c : Candidate Built Diff Warning, c.layers = layers ∧ c.built = built ∧
      (step params t (.load i (.build o))).loads i = .built r c := by
  obtain ⟨c, hlayers, hbuilt, hc⟩ : ∃ c : Candidate Built Diff Warning, c.layers = layers ∧
      c.built = built ∧ t.service.buildCandidate params o r.text = .ok c :=
    ⟨⟨params.computeDiff t.service.hot t.service.appliedLayers built layers, layers, built,
      params.warnings config⟩, rfl, rfl,
      (ConfigReloadService.buildCandidate_eq_ok_iff params t.service o r.text _).mpr
        ⟨config, hload, hbuild, rfl, rfl⟩⟩
  refine ⟨c, hlayers, hbuilt, loads_of_loadStep ?_⟩
  rw [h]
  show buildCandidate params t.service o r = _
  unfold buildCandidate
  rw [hc]

/-- The steps of a load up to the slot, with other steps between them. -/
def loadAmong (i : ℕ) (o : Outside Config Built) (others : List (Event Config Built))
    (o' : Outside Config Built) (others' : List (Event Config Built)) (now : DateTime) :
    List (Event Config Built) :=
  Event.load i (.markSeen o) :: (others ++ Event.load i (.build o') ::
    (others' ++ [Event.load i (.store now)]))

/-- A load of new content, the other calls going on between its steps. -/
theorem pends_of_load {t : Traffic Built Diff Warning} {i : ℕ} {r : LoadRequest}
    {o o' : Outside Config Built} {config : Config} {layers : List String} {built : Built}
    (h : t.loads i = .requested r)
    (hnew : t.service.lastContent ≠ some (layeredFingerprint params.configOverlays o.read r.text))
    (hload : loadLayers params.configOverlays o' r.text = .ok (config, layers))
    (hbuild : o'.builder config = .ok built) {others others' : List (Event Config Built)}
    (hothers : ∀ e ∈ others, ¬ e.IsOf i) (hothers' : ∀ e ∈ others', ¬ e.IsOf i) (now : DateTime) :
    Pends (run (step params) t (loadAmong i o others o' others' now)).service r layers built now
        none ∧
      ∃ c : Candidate Built Diff Warning,
        (run (step params) t (loadAmong i o others o' others' now)).loads i = afterStore r c := by
  have hchanged := changed_of_new h hnew
  have hwaiting := (loads_run_of_not_isOf params
    (step params t (.load i (.markSeen o))) hothers).trans hchanged
  obtain ⟨c, rfl, rfl, hbuilt⟩ := built_of_changed hwaiting hload hbuild
  have hready := (loads_run_of_not_isOf params _ hothers').trans hbuilt
  have hrun : run (step params) t (loadAmong i o others o' others' now) =
      step params (run (step params) (step params (run (step params)
        (step params t (.load i (.markSeen o))) others) (.load i (.build o'))) others')
        (.load i (.store now)) := by
    unfold run loadAmong
    rw [List.foldl_cons, List.foldl_append, List.foldl_cons, List.foldl_append]
    rfl
  rw [hrun]
  obtain ⟨hsvc, hloads⟩ := store_of_built hready now
  rw [hsvc]
  exact ⟨⟨⟨_, rfl, rfl, rfl, rfl, rfl, rfl⟩, head_of_loadLayers hload⟩, c, hloads⟩

/-- An editor's load gives its text to its own candidate, if that is still in the slot. -/
theorem pends_with_content {u : Traffic Built Diff Warning} {i : ℕ} {r : LoadRequest}
    {outcome : ReloadOutcome Diff Warning} {layers : List String} {built : Built} {now : DateTime}
    (h : Pends u.service r layers built now none) (hload : u.loads i = .stored r.text outcome)
    {others : List (Event Config Built)} (hothers : ∀ e ∈ others, ¬ e.IsOf i)
    (hslot : ∀ e ∈ others, e.KeepsSlot) :
    Pends (run (step params) u (others ++ [Event.load i .storeContent])).service r layers built now
      (some r.text) := by
  have hstored := (loads_run_of_not_isOf params u hothers).trans hload
  have hpending := pending_run_of_keepsSlot params u hslot
  have hsvc : (step params (run (step params) u others) (.load i .storeContent)).service =
      (run (step params) u others).service.storeContent r.text := storeContent_of_stored hstored
  obtain ⟨⟨p, hp, hlayers, hbuilt, hsource, hexpires, -⟩, hhead⟩ := h
  refine ⟨⟨{ p with content := some r.text }, ?_, hlayers, hbuilt, hsource, hexpires, rfl⟩, hhead⟩
  rw [run_append]
  refine (congrArg ConfigReloadService.pending hsvc).trans ?_
  show Option.map _ (run (step params) u others).service.pending = _
  rw [hpending, hp]
  rfl

end Staging

section Results

def sampleParams : ConfigReloadParams String String Unit Unit where
  configOverlays := []
  hotReloadEnabled := true
  warnings := fun _ => []
  noDiff := ()
  computeDiff := fun _ _ _ _ => ()

def sampleOutside : Outside String String where
  read := fun _ => .error "not found"
  loadLayered := fun layers => .ok (layers.headD "")
  builder := .ok

/-- A service that runs on the text `a`. -/
def sampleStart : Traffic String Unit Unit where
  service := ⟨.ok "a", "a", ["a"], none, none⟩
  loads := fun _ => .idle
  applies := fun _ => .idle

theorem sampleStart_fresh : sampleStart.Fresh := ⟨rfl, fun _ => rfl, fun _ => rfl⟩

def requestB : LoadRequest := ⟨true, .adminRequest, "b"⟩

/-- The steps of a load from its request on; those of the path it does not take do nothing. -/
def restOfLoad (i : ℕ) (now : DateTime) : List (Event String String) :=
  [.load i (.markSeen sampleOutside), .load i (.rereadWarnings sampleOutside),
    .load i (.build sampleOutside), .load i (.store now), .load i .storeContent]

def loadB (i : ℕ) (now : DateTime) : List (Event String String) :=
  .load i (.loadPendingFromContent "b" .adminRequest) :: restOfLoad i now

def pendingB : PendingReload String Unit Unit :=
  { diff := (), layers := ["b"], built := "b", warnings := [], createdAt := 0,
    expiresAt := 600 * 10 ^ 9, source := .adminRequest, content := some "b" }

def applyB : List (Event String String) := [.apply 0 (.take 1), .apply 0 .putInForce]

theorem unmixed_loadB : Guarded (step sampleParams) Unmixed sampleStart
    (loadB 0 0 ++ applyB ++ [Event.apply 0 (.persist true)]) := by
  refine ⟨trivial, trivial, trivial, trivial, ?_, trivial, trivial, trivial, trivial, trivial⟩
  intro _ j
  by_cases hj : j = 0
  · subst hj
    rfl
  · have hothers : ∀ e ∈ (loadB 0 0).take 4, ¬ e.IsOf j := by
      rintro e he ⟨a, rfl⟩
      simp [loadB, restOfLoad, hj] at he
    exact congrArg Load.isStored (loads_run_of_not_isOf sampleParams sampleStart hothers)

/-- What an apply writes is what it has put in force, in every run in which no load stores a
candidate between the two steps of another. A load of content that is not the last
attempt's leaves its candidate pending, an editor's load with its text; a load of the last
attempt's content stages nothing. -/
theorem applied_is_persisted (params : ConfigReloadParams Config Built Diff Warning)
    (start : Traffic Built Diff Warning) (hstart : start.Fresh)
    (events : List (Event Config Built)) :
    (Guarded (step params) Unmixed start events → ∀ before j after p text,
      events = before ++ Event.apply j (.persist true) :: after →
      (run (step params) start before).applies j = .inForce p → p.content = some text →
        (run (step params) start
            (before ++ [Event.apply j (.persist true)])).service.configFile = .ok text ∧
          PutInForce params start before j p.toCandidate ∧
          BuiltIn params before text p.toCandidate) ∧
    (∀ t, t = run (step params) start events → ∀ i r, t.loads i = .requested r → ∀ o,
      t.service.lastContent ≠ some (layeredFingerprint params.configOverlays o.read r.text) →
      ∀ o' config layers built,
      loadLayers params.configOverlays o' r.text = .ok (config, layers) →
      o'.builder config = .ok built →
      ∀ others others', (∀ e ∈ others, ¬ e.IsOf i) → (∀ e ∈ others', ¬ e.IsOf i) → ∀ now u,
      u = run (step params) t (loadAmong i o others o' others' now) →
        Pends u.service r layers built now none ∧
          (r.fromContent = true → ∀ rest, (∀ e ∈ rest, ¬ e.IsOf i) → (∀ e ∈ rest, e.KeepsSlot) →
            Pends (run (step params) u (rest ++ [Event.load i .storeContent])).service r layers built
              now (some r.text))) ∧
    (∀ t, t = run (step params) start events → ∀ i r, t.loads i = .requested r → ∀ o,
      t.service.lastContent = some (layeredFingerprint params.configOverlays o.read r.text) →
      (step params t (.load i (.markSeen o))).service.pending = t.service.pending ∧
        (r.fromContent = false →
          (step params t (.load i (.markSeen o))).loads i = .loaded (.ok params.noDiff)) ∧
        (r.fromContent = true → ∀ others, (∀ e ∈ others, ¬ e.IsOf i) → ∀ o',
          (run (step params) t (Event.load i (.markSeen o) ::
            (others ++ [Event.load i (.rereadWarnings o')]))).loads i =
              .answered (unstagedOutcome params o' r))) := by
  refine ⟨?_, ?_, ?_⟩
  · rintro hguard before j after p text rfl hforce hcontent
    rw [guarded_append] at hguard
    refine ⟨?_, putInForce_of_inForce hstart before hforce,
      builtIn_of_inForce hstart hguard.1 hforce hcontent⟩
    rw [run_append]
    exact configFile_persist hforce hcontent
  · rintro t - i r hrequested o hnew o' config layers built hload hbuild others others' hothers
      hothers' now u rfl
    obtain ⟨hpends, c, hloads⟩ :=
      pends_of_load hrequested hnew hload hbuild hothers hothers' now
    refine ⟨hpends, fun hcontent rest hrest hslot => ?_⟩
    have hstored : afterStore r c = .stored r.text ⟨c.diff, c.warnings, true⟩ := by
      unfold afterStore
      rw [if_pos hcontent]
    exact pends_with_content hpends (hloads.trans hstored) hrest hslot
  · rintro t - i r hrequested o hseen
    obtain ⟨hpending, hloads⟩ := unstaged_of_seen hrequested hseen
    refine ⟨hpending, fun hfile => ?_, fun hcontent others hothers o' => ?_⟩
    · rw [hloads, hfile]
      rfl
    · rw [if_pos hcontent] at hloads
      exact answered_of_unchanged hloads hothers o'

theorem applied_is_persisted_sample :
    ((run (step sampleParams) sampleStart
        (loadB 0 0 ++ applyB ++ [Event.apply 0 (.persist true)])).service.configFile = .ok "b" ∧
      PutInForce sampleParams sampleStart (loadB 0 0 ++ applyB) 0 pendingB.toCandidate ∧
      BuiltIn sampleParams (loadB 0 0 ++ applyB) "b" pendingB.toCandidate) ∧
    Pends (run (step sampleParams)
      (run (step sampleParams) sampleStart [.load 0 (.loadPendingFromContent "b" .adminRequest)])
      (loadAmong 0 sampleOutside [] sampleOutside [] 0)).service requestB ["b"] "b" 0 none :=
  ⟨(applied_is_persisted sampleParams sampleStart sampleStart_fresh _).1 unmixed_loadB _ 0 []
      pendingB "b" rfl rfl rfl,
    ((applied_is_persisted sampleParams sampleStart sampleStart_fresh
      [.load 0 (.loadPendingFromContent "b" .adminRequest)]).2.1 _ rfl 0 requestB rfl sampleOutside
      (by decide) sampleOutside "b" ["b"] "b" rfl rfl [] [] nofun nofun 0 _ rfl).1⟩

/-- Two editors' loads: the second stores its candidate between the two steps of the first,
whose text goes to it. -/
def mixedLoads : List (Event String String) :=
  [.load 0 (.loadPendingFromContent "b" .adminRequest), .load 0 (.markSeen sampleOutside),
    .load 1 (.loadPendingFromContent "c" .adminRequest), .load 1 (.markSeen sampleOutside),
    .load 0 (.build sampleOutside), .load 1 (.build sampleOutside), .load 0 (.store 0),
    .load 1 (.store 0), .load 0 .storeContent]

/-- A candidate is discarded, and its text submitted again: neither in force nor pending, it
is taken for unchanged. And where two loads mix, an apply puts the configuration built from
the one text in force and writes the other. -/
theorem a_discarded_text_is_not_staged_again : sampleStart.Fresh ∧
    (¬ ∀ (events : List (Event String String)) (i : ℕ) (r : LoadRequest) (config : String)
      (layers : List String) (built : String) (now : DateTime),
      (run (step sampleParams) sampleStart events).loads i = .requested r →
      loadLayers sampleParams.configOverlays sampleOutside r.text = .ok (config, layers) →
      sampleOutside.builder config = .ok built →
      (run (step sampleParams) sampleStart events).service.appliedLayers ≠ layers →
      (∀ p, (run (step sampleParams) sampleStart events).service.pending = some p →
        p.layers ≠ layers) →
      ∃ p, (run (step sampleParams) sampleStart (events ++ restOfLoad i now)).service.pending =
        some p ∧ p.layers = layers) ∧
    (run (step sampleParams) sampleStart (mixedLoads ++ applyB ++
        [Event.apply 0 (.persist true)])).service.configFile = .ok "b" ∧
      (run (step sampleParams) sampleStart (mixedLoads ++ applyB ++
        [Event.apply 0 (.persist true)])).service.hot = "c" := by
  refine ⟨sampleStart_fresh, fun h => ?_, rfl, rfl⟩
  obtain ⟨p, hp, -⟩ := h
    (loadB 0 0 ++ [Event.discard, Event.load 1 (.loadPendingFromContent "b" .adminRequest)])
    1 requestB "b" ["b"] "b" 1 rfl rfl rfl (by decide) nofun
  cases hp

end Results

end BatleHub.StagedReloads
