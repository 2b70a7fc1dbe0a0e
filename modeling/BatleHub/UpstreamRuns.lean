import BatleHub.Lib.Runs
import BatleHub.UpstreamSweeps

/-!
Whole histories of sweeps and rechecks. A row is confirmed on distinct sweeps as long as
each sweep counts a version once and clears what its listing confirmed: where a missing
version is held twice it is counted twice, and where a listing confirms more versions than
the probe cap the rows of the later ones stay.
-/
namespace BatleHub.UpstreamAudit

open Lib AssocMap
open LocalPackages (DateTime)

section Effects
variable (policy : UpstreamAuditPolicy) (registry : String) (now : DateTime)

/-- A row after a miss: it may be confirmed now. -/
def missedRow (key : Key) (old : Option UpstreamStatus) : UpstreamStatus :=
  let row := countMiss key now old
  if row.state = .disappeared then row
  else if policy.confirmAfter ≤ row.consecutiveMisses ∧ ageOk policy now row.firstMissedAt = true then
    { row with state := .disappeared, confirmedAt := some (row.confirmedAt.getD now) }
  else row

theorem lookup_clear (name : String) (version : Option String) (covered : List String)
    (s : Sweeping) (k : Key) :
    (clear registry name version covered s).1.lookup k =
      if k = (registry, name, version) then none else s.1.lookup k := by
  unfold clear clearRow
  cases s.1.lookup (registry, name, version) with
  | none => exact lookup_erase_eq _ _ _
  | some row => exact lookup_erase_eq _ _ _

theorem confirm_insert (key : Key) (row : UpstreamStatus) (rows : Rows) :
    confirm key now (rows.insert key row) = .ok ((rows.insert key row).insert key
      { row with state := .disappeared, confirmedAt := some (row.confirmedAt.getD now) }) := by
  unfold confirm
  rw [lookup_insert_eq, if_pos rfl]

theorem lookup_miss (name : String) (version : Option String) (covered : List String)
    (s : Sweeping) (k : Key) :
    (miss policy registry now name version covered s).1.lookup k =
      if k = (registry, name, version) then
        some (missedRow policy now (registry, name, version) (s.1.lookup (registry, name, version)))
      else s.1.lookup k := by
  unfold miss recordMiss missedRow
  dsimp only
  generalize countMiss (registry, name, version) now (s.1.lookup (registry, name, version)) = row
  by_cases hstate : row.state = .disappeared
  · rw [if_pos hstate, if_pos hstate]
    exact lookup_insert_eq _ _ _ _
  · rw [if_neg hstate, if_neg hstate]
    by_cases hcount : policy.confirmAfter ≤ row.consecutiveMisses ∧
        ageOk policy now row.firstMissedAt = true
    · rw [if_pos hcount, if_pos hcount, confirm_insert]
      dsimp only
      rw [lookup_insert_eq, lookup_insert_eq]
      split_ifs <;> rfl
    · rw [if_neg hcount, if_neg hcount]
      exact lookup_insert_eq _ _ _ _

theorem lookup_foldl_clear (name : String) (vs : List String) (s : Sweeping) (k : Key) :
    (vs.foldl (fun s v => clear registry name (some v) [v] s) s).1.lookup k =
      if ∃ v ∈ vs, k = (registry, name, some v) then none else s.1.lookup k := by
  induction vs generalizing s with
  | nil => simp
  | cons v rest ih =>
    rw [List.foldl_cons, ih, lookup_clear]
    simp only [List.mem_cons, exists_eq_or_imp]
    by_cases hrest : ∃ v ∈ rest, k = (registry, name, some v)
    · rw [if_pos hrest, if_pos (Or.inr hrest)]
    · by_cases hv : k = (registry, name, some v)
      · rw [if_neg hrest, if_pos hv, if_pos (Or.inl hv)]
      · rw [if_neg hrest, if_neg hv, if_neg (not_or.mpr ⟨hv, hrest⟩)]

/-- As many misses as the version is held. -/
def missedTimes (key : Key) (n : ℕ) (old : Option UpstreamStatus) : Option UpstreamStatus :=
  (fun o => some (missedRow policy now key o))^[n] old

theorem lookup_foldl_missing (name : String) (missing vs : List String) (s : Sweeping)
    (v : String) :
    (vs.foldl (fun s v =>
        if v ∈ missing then miss policy registry now name (some v) [v] s
        else clear registry name (some v) [v] s) s).1.lookup (registry, name, some v) =
      if v ∈ missing then
        missedTimes policy now (registry, name, some v) (vs.count v)
          (s.1.lookup (registry, name, some v))
      else if v ∈ vs then none else s.1.lookup (registry, name, some v) := by
  induction vs generalizing s with
  | nil =>
    rw [List.foldl_nil, List.count_nil, if_neg List.not_mem_nil]
    split_ifs <;> rfl
  | cons w rest ih =>
    rw [List.foldl_cons, ih]
    by_cases hw : w = v
    · subst hw
      by_cases hmissing : w ∈ missing
      · rw [if_pos hmissing, if_pos hmissing, if_pos hmissing, lookup_miss, if_pos rfl,
          List.count_cons_self]
        unfold missedTimes
        rw [Function.iterate_succ_apply]
      · rw [if_neg hmissing, if_neg hmissing, if_neg hmissing, lookup_clear, if_pos rfl,
          if_pos List.mem_cons_self, ite_self]
    · have hsame : (if w ∈ missing then miss policy registry now name (some w) [w] s
          else clear registry name (some w) [w] s).1.lookup (registry, name, some v) =
          s.1.lookup (registry, name, some v) := by
        have hkey : ((registry, name, some v) : Key) ≠ (registry, name, some w) := by
          intro h
          simp only [Prod.mk.injEq, Option.some.injEq, true_and] at h
          exact hw h.symm
        split_ifs
        · rw [lookup_miss, if_neg hkey]
        · rw [lookup_clear, if_neg hkey]
      rw [hsame, List.count_cons_of_ne hw]
      simp only [List.mem_cons, Ne.symm hw, false_or]

/-- A fold over one package's versions leaves the other rows. -/
theorem lookup_foldl_other (name : String) (missing vs : List String) (s : Sweeping) (k : Key)
    (hk : ∀ v, k ≠ (registry, name, some v)) :
    (vs.foldl (fun s v =>
        if v ∈ missing then miss policy registry now name (some v) [v] s
        else clear registry name (some v) [v] s) s).1.lookup k = s.1.lookup k := by
  induction vs generalizing s with
  | nil => rfl
  | cons w rest ih =>
    rw [List.foldl_cons, ih]
    split_ifs
    · rw [lookup_miss, if_neg (hk w)]
    · rw [lookup_clear, if_neg (hk w)]

/-- What a package's outcome does to a row of the package. -/
def effect (p : Probed) (key : Key) (old : Option UpstreamStatus) : Option UpstreamStatus :=
  match p.outcome, key.2.2 with
  | .inconclusive _, _ => old
  | .present, none => none
  | .present, some v => if v ∈ p.versions.take MAX_VERSION_PROBES_PER_PACKAGE then none else old
  | .missingPackage, none => some (missedRow policy now key old)
  | .missingPackage, some _ => old
  | .missingVersions _, none => none
  | .missingVersions missing, some v =>
    if v ∈ missing then missedTimes policy now key (p.versions.count v) old
    else if v ∈ p.versions then none else old

theorem lookup_applyOne (s : Sweeping) (p : Probed) (version : Option String) :
    (applyOne policy registry now s p).1.lookup (registry, p.name, version) =
      effect policy now p (registry, p.name, version) (s.1.lookup (registry, p.name, version)) := by
  unfold applyOne effect
  cases p.outcome with
  | inconclusive e => rfl
  | present =>
    unfold present
    dsimp only
    rw [lookup_foldl_clear, lookup_clear]
    cases version with
    | none =>
      rw [if_pos rfl, ite_self]
    | some v =>
      have hkey : ((registry, p.name, some v) : Key) ≠ (registry, p.name, none) := by simp
      rw [if_neg hkey]
      simp only [Prod.mk.injEq, Option.some.injEq, true_and, exists_eq_right']
  | missingPackage =>
    dsimp only
    rw [lookup_miss]
    cases version with
    | none => rw [if_pos rfl]
    | some v => rw [if_neg (by simp)]
  | missingVersions missing =>
    unfold missingVersions
    dsimp only
    cases version with
    | none =>
      rw [lookup_foldl_other _ _ _ _ _ _ _ _ (by simp), lookup_clear, if_pos rfl]
    | some v =>
      have hkey : ((registry, p.name, some v) : Key) ≠ (registry, p.name, none) := by simp
      rw [lookup_foldl_missing, lookup_clear, if_neg hkey]

theorem lookup_applyOne_other (s : Sweeping) (p : Probed) (k : Key)
    (hk : ∀ version, k ≠ (registry, p.name, version)) :
    (applyOne policy registry now s p).1.lookup k = s.1.lookup k := by
  unfold applyOne
  cases p.outcome with
  | inconclusive e => rfl
  | present =>
    unfold present
    dsimp only
    rw [lookup_foldl_clear, lookup_clear, if_neg (hk none), if_neg]
    rintro ⟨v, -, hv⟩
    exact hk (some v) hv
  | missingPackage =>
    dsimp only
    rw [lookup_miss, if_neg (hk none)]
  | missingVersions missing =>
    unfold missingVersions
    dsimp only
    rw [lookup_foldl_other _ _ _ _ _ _ _ _ (fun v => hk (some v)), lookup_clear,
      if_neg (hk none)]

theorem lookup_foldl_applyOne_other (outcomes : List Probed) (s : Sweeping) (k : Key)
    (hk : ∀ p ∈ outcomes, ∀ version, k ≠ (registry, p.name, version)) :
    (outcomes.foldl (applyOne policy registry now) s).1.lookup k = s.1.lookup k := by
  induction outcomes generalizing s with
  | nil => rfl
  | cons p rest ih =>
    rw [List.foldl_cons, ih _ (fun q hq => hk q (List.mem_cons_of_mem p hq)),
      lookup_applyOne_other _ _ _ _ _ _ (hk p List.mem_cons_self)]

/-- A row of a probed package after the whole sweep. -/
theorem lookup_foldl_applyOne (outcomes : List Probed) (hnodup : (outcomes.map Probed.name).Nodup)
    (s : Sweeping) {p : Probed} (hp : p ∈ outcomes) (version : Option String) :
    (outcomes.foldl (applyOne policy registry now) s).1.lookup (registry, p.name, version) =
      effect policy now p (registry, p.name, version) (s.1.lookup (registry, p.name, version)) := by
  induction outcomes generalizing s with
  | nil => cases hp
  | cons q rest ih =>
    rw [List.map_cons, List.nodup_cons] at hnodup
    rw [List.foldl_cons]
    rcases List.mem_cons.mp hp with rfl | hrest
    · rw [lookup_foldl_applyOne_other, lookup_applyOne]
      intro q hq version' hkey
      simp only [Prod.mk.injEq, true_and] at hkey
      exact hnodup.1 (List.mem_map.mpr ⟨q, hq, hkey.1.symm⟩)
    · rw [ih hnodup.2 _ hrest, lookup_applyOne_other]
      intro version' hkey
      simp only [Prod.mk.injEq, true_and] at hkey
      exact hnodup.1 (List.mem_map.mpr ⟨p, hrest, hkey.1⟩)

end Effects

section History

/-- What a pass has seen. -/
structure Seen where
  registry : String
  now : DateTime
  void : Bool
  client : RegistryClient
  probes : List Probed

/-- The probe found the package, or the version, missing. -/
def Probed.missed (p : Probed) : Option String → Bool
  | none => decide (p.outcome = .missingPackage)
  | some v =>
    match p.outcome with
    | .missingVersions missing => decide (v ∈ missing)
    | _ => false

/-- The probe came to an answer, and the upstream confirmed the package, or the version. -/
def Probed.found (client : RegistryClient) (registry : String) (p : Probed)
    (version : Option String) : Bool :=
  match p.outcome with
  | .inconclusive _ => false
  | _ =>
    match version with
    | none => packageConfirmed client registry p.name p.versions
    | some v => decide (v ∈ confirmedVersions client registry p.name p.versions)

/-- The sweep observed the key as missing. A void sweep has observed nothing. -/
def Seen.missed (s : Seen) (k : Key) : Bool :=
  !s.void && decide (s.registry = k.1) &&
    s.probes.any fun p => decide (p.name = k.2.1) && p.missed k.2.2

/-- The sweep observed the key as present. -/
def Seen.found (s : Seen) (k : Key) : Bool :=
  !s.void && decide (s.registry = k.1) &&
    s.probes.any fun p => decide (p.name = k.2.1) && p.found s.client s.registry k.2.2

/-- Sweeps in a row none of which observed the key as present, the first of which observed
it as missing. -/
structure Streak (k : Key) (window : List Seen) (since : DateTime) : Prop where
  first : ∃ s rest, window = s :: rest ∧ s.missed k = true ∧ s.now = since
  unfound : ∀ s ∈ window, s.found k = false

/-- Enough sweeps observed the key as missing, none between them observed it as present,
and the first and the last of them are far enough apart. -/
structure Evidence (policy : UpstreamAuditPolicy) (k : Key) (window : List Seen) : Prop where
  first : ∃ s rest, window = s :: rest ∧ s.missed k = true ∧
    ∃ before last, window = before ++ [last] ∧ last.missed k = true ∧
      (policy.confirmMinAge : ℤ) ≤ last.now - s.now
  unfound : ∀ s ∈ window, s.found k = false
  enough : policy.confirmAfter ≤ window.countP fun s => s.missed k

structure World where
  rows : Rows
  lastStarted : Option DateTime
  history : List Seen

def World.empty : World := ⟨∅, none, []⟩

/-- A registry's turn. -/
def passStep (policy : UpstreamAuditPolicy) (w : World) (pass : Pass) : World :=
  { w with
    rows := (sweepRegistry policy pass w.rows).1
    history :=
      match pass.client with
      | none => w.history
      | some client =>
        let outcomes := pass.outcomes policy client
        w.history ++ [⟨pass.registry, pass.now, voids policy outcomes, client, outcomes⟩] }

inductive Event where
  | sweep (started : DateTime) (inventory : Except CoreError (List ArtifactMeta))
      (kinds : String → Option RegistryKind) (clients : String → Option RegistryClient)
      (nowOf : String → DateTime)
  | recheck (registry package : String) (version : Option String)
      (inventory : Except CoreError (List ArtifactMeta)) (kinds : String → Option RegistryKind)
      (clients : String → Option RegistryClient) (now : DateTime)

section Service
variable (policy : UpstreamAuditPolicy) (registries : List String)

/-- The rows of the inventory by registry and package. -/
def byRegistry (kinds : String → Option RegistryKind) (all : List ArtifactMeta) :
    Assoc String CachedPackages :=
  all.foldl
    (fun acc row =>
      if row.registry ∈ registries then
        match kinds row.registry with
        | none => acc
        | some kind =>
          match heldVersion kind row with
          | none => acc
          | some version =>
            acc.insert row.registry
              (addHeld row version ((acc.lookup row.registry).getD ∅))
      else acc)
    ∅

/-- Each registry takes its packages out of the map. -/
def sweepPasses (previous : Option DateTime) (clients : String → Option RegistryClient)
    (nowOf : String → DateTime) : List String → Assoc String CachedPackages → List Pass
  | [], _ => []
  | registry :: rest, grouped =>
    ⟨registry, (grouped.lookup registry).getD ∅, previous, clients registry, nowOf registry⟩ ::
      sweepPasses previous clients nowOf rest (grouped.erase registry)

/-- The packages of a recheck: one, with all its versions or with one. -/
def recheckPackages (package : String) (version : Option String) (kind : RegistryKind)
    (rows : List ArtifactMeta) : CachedPackages :=
  rows.foldl
    (fun acc row =>
      if row.packageName ≠ package then acc
      else
        match heldVersion kind row with
        | none => acc
        | some held => if version.any fun v => decide (held ≠ v) then acc else addHeld row held acc)
    ∅

/-- The turns that a call comes to. -/
def passesOf (previous : Option DateTime) : Event → List Pass
  | .sweep _ inventory kinds clients nowOf =>
    match inventory with
    | .error _ => []
    | .ok all => sweepPasses previous clients nowOf registries (byRegistry registries kinds all)
  | .recheck registry package version inventory kinds clients now =>
    if registry ∉ registries then []
    else
      match kinds registry, inventory with
      | some kind, .ok rows =>
        let packages := recheckPackages package version kind rows
        if packages.entries.isEmpty then []
        else [⟨registry, packages, none, clients registry, now⟩]
      | _, _ => []

/-- A sweep notes when it started. -/
def World.start (w : World) : Event → World
  | .sweep started _ _ _ _ => { w with lastStarted := some started }
  | .recheck _ _ _ _ _ _ _ => w

def step (w : World) (e : Event) : World :=
  Runs.run (passStep policy) (w.start e) (passesOf registries w.lastStarted e)

/-- A version found missing is held once, and where every version was found no row of a
confirmed version stays behind the cap. -/
def CountedOnce (rows : Rows) (client : RegistryClient) (registry name : String)
    (versions : List String) : ProbeOutcome → Prop
  | .missingVersions missing => ∀ v ∈ missing, versions.count v ≤ 1
  | .present =>
    ∀ v ∈ confirmedVersions client registry name versions,
      v ∈ versions.take MAX_VERSION_PROBES_PER_PACKAGE ∨ rows.lookup (registry, name, some v) = none
  | .missingPackage => True
  | .inconclusive _ => True

instance (rows : Rows) (client : RegistryClient) (registry name : String)
    (versions : List String) :
    (outcome : ProbeOutcome) → Decidable (CountedOnce rows client registry name versions outcome)
  | .missingVersions missing => inferInstanceAs (Decidable (∀ v ∈ missing, versions.count v ≤ 1))
  | .present =>
    inferInstanceAs (Decidable (∀ v ∈ confirmedVersions client registry name versions,
      v ∈ versions.take MAX_VERSION_PROBES_PER_PACKAGE ∨
        rows.lookup (registry, name, some v) = none))
  | .missingPackage => isTrue trivial
  | .inconclusive _ => isTrue trivial

/-- Each package of a sweep that is not void is counted once. -/
def CountsOnce (w : World) (pass : Pass) : Prop :=
  ∀ client ∈ pass.client, voids policy (pass.outcomes policy client) = false →
    ∀ p ∈ pass.outcomes policy client,
      CountedOnce w.rows client pass.registry p.name p.versions p.outcome

instance (w : World) (pass : Pass) : Decidable (CountsOnce policy w pass) :=
  inferInstanceAs (Decidable (∀ client ∈ pass.client, _))

def EventCountsOnce (w : World) (e : Event) : Prop :=
  Runs.Guarded (passStep policy) (CountsOnce policy) (w.start e)
    (passesOf registries w.lastStarted e)

instance (w : World) (e : Event) : Decidable (EventCountsOnce policy registries w e) :=
  Runs.decidableGuarded _ _ _ _

end Service

/-- A row stands on sweeps of the history: a missing one on those up to now. -/
structure Witnessed (policy : UpstreamAuditPolicy) (w : World) : Prop where
  missing : ∀ k row, w.rows.lookup k = some row → row.state = .missing →
    ∃ before window, w.history = before ++ window ∧ Streak k window row.firstMissedAt ∧
      row.consecutiveMisses ≤ window.countP fun s => s.missed k
  disappeared : ∀ k row, w.rows.lookup k = some row → row.state = .disappeared →
    ∃ before window after, w.history = before ++ window ++ after ∧ Evidence policy k window

theorem Witnessed.empty (policy : UpstreamAuditPolicy) : Witnessed policy World.empty where
  missing := nofun
  disappeared := nofun

section Steps
variable {policy : UpstreamAuditPolicy}

theorem Streak.snoc {k : Key} {window : List Seen} {since : DateTime} (h : Streak k window since)
    {s : Seen} (hs : s.found k = false) : Streak k (window ++ [s]) since where
  first := by
    obtain ⟨first, rest, rfl, hmissed, hnow⟩ := h.first
    exact ⟨first, rest ++ [s], rfl, hmissed, hnow⟩
  unfound := by
    intro s' hs'
    rcases List.mem_append.mp hs' with hold | hnew
    · exact h.unfound s' hold
    · rw [List.mem_singleton.mp hnew]
      exact hs

theorem Streak.single {k : Key} {s : Seen} (hmissed : s.missed k = true)
    (hfound : s.found k = false) : Streak k [s] s.now where
  first := ⟨s, [], rfl, hmissed, rfl⟩
  unfound := by
    intro s' hs'
    rw [List.mem_singleton.mp hs']
    exact hfound

/-- A row on which one more sweep has missed its key. -/
theorem missedRow_witnessed (policy : UpstreamAuditPolicy) {k : Key} {history : List Seen}
    (before window : List Seen) (row : UpstreamStatus) {seen : Seen} (hhistory : history ++ [seen] = before ++ window)
    (hstreak : Streak k window row.firstMissedAt) (hstate : row.state = .missing)
    (hlast : ∃ init, window = init ++ [seen]) (hmissed : seen.missed k = true)
    (hcount : row.consecutiveMisses ≤ window.countP fun s => s.missed k) :
    let row' := if policy.confirmAfter ≤ row.consecutiveMisses ∧
        ageOk policy seen.now row.firstMissedAt = true then
      { row with state := .disappeared, confirmedAt := some (row.confirmedAt.getD seen.now) }
      else row
    (row'.state = .missing → ∃ before window, history ++ [seen] = before ++ window ∧
      Streak k window row'.firstMissedAt ∧
        row'.consecutiveMisses ≤ window.countP fun s => s.missed k) ∧
    (row'.state = .disappeared → ∃ before window after,
      history ++ [seen] = before ++ window ++ after ∧ Evidence policy k window) := by
  intro row'
  by_cases hconfirm : policy.confirmAfter ≤ row.consecutiveMisses ∧
      ageOk policy seen.now row.firstMissedAt = true
  · have hrow : row' = { row with
        state := .disappeared, confirmedAt := some (row.confirmedAt.getD seen.now) } :=
      if_pos hconfirm
    refine ⟨?_, ?_⟩
    · rw [hrow]
      nofun
    · intro _
      refine ⟨before, window, [], by rw [hhistory, List.append_nil], ?_, hstreak.unfound,
        hconfirm.1.trans hcount⟩
      obtain ⟨first, rest, hwindow, hfirst, hsince⟩ := hstreak.first
      obtain ⟨init, hinit⟩ := hlast
      refine ⟨first, rest, hwindow, hfirst, init, seen, hinit, hmissed, ?_⟩
      rw [hsince]
      exact of_decide_eq_true hconfirm.2
  · have hrow : row' = row := if_neg hconfirm
    rw [hrow]
    refine ⟨fun _ => ⟨before, window, hhistory, hstreak, hcount⟩, ?_⟩
    rw [hstate]
    nofun

theorem any_name {probes : List Probed} (hnodup : (probes.map Probed.name).Nodup) {p : Probed}
    (hp : p ∈ probes) (f : Probed → Bool) :
    (probes.any fun q => decide (q.name = p.name) && f q) = f p := by
  cases hf : f p with
  | true =>
    rw [List.any_eq_true]
    exact ⟨p, hp, by simp [hf]⟩
  | false =>
    rw [List.any_eq_false]
    intro q hq
    by_cases hname : q.name = p.name
    · rw [List.inj_on_of_nodup_map hnodup hq hp hname, hf]
      simp
    · simp [hname]

theorem outcomes_nodup (policy : UpstreamAuditPolicy) (pass : Pass) (client : RegistryClient) :
    ((pass.outcomes policy client).map Probed.name).Nodup := by
  unfold Pass.outcomes
  rw [List.map_map]
  have hkeys : (pass.packages.entries.map Sigma.fst).Nodup := pass.packages.nodupKeys
  exact hkeys.sublist (List.filter_sublist.map _)

theorem outcome_of_mem {pass : Pass} {client : RegistryClient} {p : Probed}
    (hp : p ∈ pass.outcomes policy client) :
    p.outcome = (probePackage client pass.registry p.name p.versions).1 := by
  unfold Pass.outcomes at hp
  obtain ⟨e, -, rfl⟩ := List.mem_map.mp hp
  rfl

/-- A row of a version that the sweep found missing, or found, or left alone. -/
inductive Turn (policy : UpstreamAuditPolicy) (seen : Seen) (k : Key) :
    Option UpstreamStatus → Option UpstreamStatus → Prop
  | unchanged (old : Option UpstreamStatus) (h : old ≠ none → seen.found k = false) :
      Turn policy seen k old old
  | cleared (old : Option UpstreamStatus) : Turn policy seen k old none
  | missed (old : Option UpstreamStatus) (h : seen.missed k = true) (hf : seen.found k = false) :
      Turn policy seen k old (some (missedRow policy seen.now k old))

/-- The turn of a key whose package was probed in a sweep that is not void. -/
theorem turn_of_probed {pass : Pass} {client : RegistryClient} {p : Probed}
    (hp : p ∈ pass.outcomes policy client) (version : Option String) (old : Option UpstreamStatus)
    (hguard : match p.outcome with
      | .missingVersions missing => ∀ v ∈ missing, p.versions.count v ≤ 1
      | .present =>
        ∀ v ∈ confirmedVersions client pass.registry p.name p.versions,
          v ∈ p.versions.take MAX_VERSION_PROBES_PER_PACKAGE ∨ (version = some v → old = none)
      | _ => True) :
    Turn policy ⟨pass.registry, pass.now, false, client, pass.outcomes policy client⟩
      (pass.registry, p.name, version) old
      (effect policy pass.now p (pass.registry, p.name, version) old) := by
  have hprobe := outcome_of_mem hp
  have hnodup := outcomes_nodup policy pass client
  have hmissed : Seen.missed ⟨pass.registry, pass.now, false, client, pass.outcomes policy client⟩
      (pass.registry, p.name, version) = p.missed version := by
    unfold Seen.missed
    rw [any_name hnodup hp]
    simp
  have hfound : Seen.found ⟨pass.registry, pass.now, false, client, pass.outcomes policy client⟩
      (pass.registry, p.name, version) = p.found client pass.registry version := by
    unfold Seen.found
    rw [any_name hnodup hp]
    simp
  unfold effect
  cases hout : p.outcome with
  | inconclusive e =>
    refine Turn.unchanged old fun _ => ?_
    rw [hfound]
    unfold Probed.found
    rw [hout]
  | present =>
    rw [hout] at hguard
    cases version with
    | none => exact Turn.cleared old
    | some v =>
      dsimp only
      split_ifs with hv
      · exact Turn.cleared old
      · refine Turn.unchanged old fun hold => ?_
        rw [hfound, Probed.found, hout]
        refine decide_eq_false fun hconfirmed => ?_
        rcases hguard v hconfirmed with htake | hnone
        · exact hv htake
        · exact hold (hnone rfl)
  | missingPackage =>
    obtain ⟨hnothing, hpackage⟩ := missingPackage_spec (hprobe.symm.trans hout)
    cases version with
    | none =>
      refine Turn.missed old ?_ ?_
      · rw [hmissed, Probed.missed, hout]
        rfl
      · rw [hfound, Probed.found, hout]
        exact hpackage
    | some v =>
      refine Turn.unchanged old fun _ => ?_
      rw [hfound, Probed.found, hout, hnothing]
      rfl
  | missingVersions missing =>
    rw [hout] at hguard
    cases version with
    | none => exact Turn.cleared old
    | some v =>
      dsimp only
      split_ifs with hv hheld
      · obtain ⟨hmem, hunconfirmed⟩ := missing_spec (hprobe.symm.trans hout) hv
        have hone : p.versions.count v = 1 := by
          have hle := hguard v hv
          have hpos := List.count_pos_iff.mpr hmem
          omega
        rw [hone]
        refine Turn.missed old ?_ ?_
        · rw [hmissed, Probed.missed, hout]
          exact decide_eq_true hv
        · rw [hfound, Probed.found, hout]
          exact decide_eq_false (hunconfirmed (hguard v hv))
      · exact Turn.cleared old
      · refine Turn.unchanged old fun _ => ?_
        rw [hfound, Probed.found, hout]
        exact decide_eq_false fun hconfirmed => hheld (mem_versions_of_confirmed hconfirmed)

theorem unseen {seen : Seen} {k : Key}
    (h : seen.void = true ∨ seen.registry ≠ k.1 ∨ ∀ p ∈ seen.probes, p.name ≠ k.2.1) :
    seen.missed k = false ∧ seen.found k = false := by
  unfold Seen.missed Seen.found
  rcases h with hvoid | hregistry | hname
  · rw [hvoid]
    exact ⟨rfl, rfl⟩
  · rw [decide_eq_false hregistry, Bool.and_false]
    exact ⟨rfl, rfl⟩
  · have hnone : ∀ f : Probed → Bool,
        (seen.probes.any fun p => decide (p.name = k.2.1) && f p) = false := by
      intro f
      rw [List.any_eq_false]
      intro p hp
      rw [decide_eq_false (hname p hp), Bool.false_and]
      nofun
    rw [hnone, hnone, Bool.and_false]
    exact ⟨rfl, rfl⟩

/-- The turn of every key. -/
theorem turn_of_sweep {pass : Pass} {client : RegistryClient} {w : World}
    (hclient : pass.client = some client) (hguard : CountsOnce policy w pass) (k : Key) :
    Turn policy ⟨pass.registry, pass.now, voids policy (pass.outcomes policy client), client,
      pass.outcomes policy client⟩ k (w.rows.lookup k)
      ((sweepRegistry policy pass w.rows).1.lookup k) := by
  unfold sweepRegistry
  rw [hclient]
  unfold apply
  dsimp only
  cases hvoid : voids policy (pass.outcomes policy client) with
  | true => exact Turn.unchanged _ fun _ => (unseen (Or.inl rfl)).2
  | false =>
    rw [if_neg (by nofun)]
    obtain ⟨registry, name, version⟩ := k
    by_cases hregistry : pass.registry = registry
    · subst hregistry
      by_cases hname : ∃ p ∈ pass.outcomes policy client, p.name = name
      · obtain ⟨p, hp, rfl⟩ := hname
        rw [lookup_foldl_applyOne policy pass.registry pass.now _ (outcomes_nodup policy pass client) _ hp]
        refine turn_of_probed hp version _ ?_
        have hcounts := hguard client hclient hvoid p hp
        cases hout : p.outcome with
        | present =>
          rw [hout] at hcounts
          intro v hv
          refine (hcounts v hv).imp_right ?_
          rintro hnone rfl
          exact hnone
        | missingVersions missing =>
          rw [hout] at hcounts
          exact hcounts
        | _ => trivial
      · have hnot : ∀ p ∈ pass.outcomes policy client, p.name ≠ name :=
          fun p hp hsame => hname ⟨p, hp, hsame⟩
        rw [lookup_foldl_applyOne_other]
        · exact Turn.unchanged _ fun _ => (unseen (Or.inr (Or.inr hnot))).2
        · intro p hp version' hkey
          exact hnot p hp (congrArg (fun k : Key => k.2.1) hkey).symm
    · rw [lookup_foldl_applyOne_other]
      · exact Turn.unchanged _ fun _ => (unseen (Or.inr (Or.inl hregistry))).2
      · intro p _ version' hkey
        exact hregistry (congrArg Prod.fst hkey).symm

theorem countMiss_some (k : Key) (now : DateTime) (row : UpstreamStatus) :
    (countMiss k now (some row)).state = row.state ∧
      (countMiss k now (some row)).firstMissedAt = row.firstMissedAt ∧
      (countMiss k now (some row)).consecutiveMisses ≤ row.consecutiveMisses + 1 :=
  ⟨rfl, rfl, Nat.mod_le _ _⟩

theorem passStep_witnessed (w : World) (pass : Pass) (h : Witnessed policy w)
    (hguard : CountsOnce policy w pass) : Witnessed policy (passStep policy w pass) := by
  unfold passStep
  cases hclient : pass.client with
  | none =>
    have hrows : (sweepRegistry policy pass w.rows).1 = w.rows := by
      unfold sweepRegistry
      rw [hclient]
    rw [hrows]
    exact ⟨h.missing, h.disappeared⟩
  | some client =>
    have hturn := turn_of_sweep hclient hguard
    dsimp only
    generalize hseen : (⟨pass.registry, pass.now, voids policy (pass.outcomes policy client), client,
      pass.outcomes policy client⟩ : Seen) = seen at hturn
    have hkeeps : ∀ k row, w.rows.lookup k = some row → row.state = .disappeared →
        ∃ before window after, w.history ++ [seen] = before ++ window ++ after ∧
          Evidence policy k window := by
      intro k row hrow hstate
      obtain ⟨before, window, after, hhistory, hevidence⟩ := h.disappeared k row hrow hstate
      exact ⟨before, window, after ++ [seen], by rw [hhistory, List.append_assoc _ after], hevidence⟩
    have hboth : ∀ k row, (sweepRegistry policy pass w.rows).1.lookup k = some row →
        (row.state = .missing → ∃ before window, w.history ++ [seen] = before ++ window ∧
          Streak k window row.firstMissedAt ∧
            row.consecutiveMisses ≤ window.countP fun s => s.missed k) ∧
        (row.state = .disappeared → ∃ before window after,
          w.history ++ [seen] = before ++ window ++ after ∧ Evidence policy k window) := by
      intro k row hrow
      have hk := hturn k
      rw [hrow] at hk
      generalize hold : w.rows.lookup k = old at hk
      cases hk with
      | unchanged hfound =>
        refine ⟨?_, hkeeps k row hold⟩
        intro hstate
        obtain ⟨before, window, hhistory, hstreak, hcount⟩ := h.missing k row hold hstate
        refine ⟨before, window ++ [seen], by rw [hhistory, List.append_assoc],
          hstreak.snoc (hfound (by nofun)), ?_⟩
        rw [List.countP_append]
        omega
      | missed hmissed hfound =>
        cases old with
        | none =>
          have hone : [seen].countP (fun s => s.missed k) = 1 := by
            rw [List.countP_singleton, if_pos hmissed]
          exact missedRow_witnessed policy w.history [seen] (countMiss k seen.now none) rfl
            (Streak.single hmissed hfound) rfl ⟨[], rfl⟩ hmissed hone.ge
        | some row =>
          obtain ⟨hstate, hfirst, hmisses⟩ := countMiss_some k seen.now row
          cases hrowstate : row.state with
          | disappeared =>
            have hsame : missedRow policy seen.now k (some row) = countMiss k seen.now (some row) := by
              unfold missedRow
              dsimp only
              rw [if_pos (hstate.trans hrowstate)]
            rw [hsame, hstate, hrowstate]
            exact ⟨nofun, fun _ => hkeeps k row hold hrowstate⟩
          | missing =>
            obtain ⟨before, window, hhistory, hstreak, hcount⟩ := h.missing k row hold hrowstate
            have hsnoc := hstreak.snoc hfound
            rw [← hfirst] at hsnoc
            have hstate' : (countMiss k seen.now (some row)).state = .missing :=
              hstate.trans hrowstate
            have hcount' : (countMiss k seen.now (some row)).consecutiveMisses ≤
                (window ++ [seen]).countP fun s => s.missed k := by
              have hone : [seen].countP (fun s => s.missed k) = 1 := by
                rw [List.countP_singleton, if_pos hmissed]
              rw [List.countP_append]
              omega
            have hhistory' : w.history ++ [seen] = before ++ (window ++ [seen]) := by
              rw [hhistory, List.append_assoc]
            have hresult := missedRow_witnessed policy before (window ++ [seen]) _ hhistory' hsnoc
              hstate' ⟨window, rfl⟩ hmissed hcount'
            unfold missedRow
            rw [if_neg (by rw [hstate']; nofun)]
            exact hresult
    exact ⟨fun k row hrow => (hboth k row hrow).1, fun k row hrow => (hboth k row hrow).2⟩

theorem step_witnessed (registries : List String) (w : World) (e : Event)
    (h : Witnessed policy w) (hguard : EventCountsOnce policy registries w e) :
    Witnessed policy (step policy registries w e) := by
  unfold step
  refine Runs.run_keeps (CountsOnce policy) (Witnessed policy) passStep_witnessed _ _ ?_ hguard
  cases e <;> exact ⟨h.missing, h.disappeared⟩

theorem run_witnessed (registries : List String) (events : List Event)
    (hguard : Runs.Guarded (step policy registries) (EventCountsOnce policy registries)
      World.empty events) :
    Witnessed policy (Runs.run (step policy registries) World.empty events) :=
  Runs.run_keeps (EventCountsOnce policy registries) (Witnessed policy)
    (step_witnessed registries) _ events (Witnessed.empty policy) hguard

/-- A void sweep changes no row. -/
theorem rows_passStep_of_voids (w : World) {pass : Pass} {client : RegistryClient}
    (hclient : pass.client = some client)
    (hvoid : voids policy (pass.outcomes policy client) = true) :
    (passStep policy w pass).rows = w.rows := by
  unfold passStep sweepRegistry apply
  rw [hclient]
  dsimp only
  rw [if_pos hvoid]

end Steps

/-- In every run whose sweeps count a version once, a confirmed disappearance stands on
distinct sweeps that were not void; and a void sweep changes no row. -/
theorem disappeared_only_on_distinct_sweeps (policy : UpstreamAuditPolicy)
    (registries : List String) (events : List Event)
    (hguard : Runs.Guarded (step policy registries) (EventCountsOnce policy registries)
      World.empty events) :
    (∀ k row, (Runs.run (step policy registries) World.empty events).rows.lookup k = some row →
      row.state = .disappeared →
      ∃ before window after,
        (Runs.run (step policy registries) World.empty events).history =
          before ++ window ++ after ∧ Evidence policy k window) ∧
    ∀ w pass client, pass.client = some client →
      voids policy (pass.outcomes policy client) = true →
      (passStep policy w pass).rows = w.rows :=
  ⟨(run_witnessed registries events hguard).disappeared,
    fun w _ _ hclient hvoid => rows_passStep_of_voids w hclient hvoid⟩

section Samples

/-- Three misses over a day, and a quarter of the packages. -/
def samplePolicy : UpstreamAuditPolicy := ⟨3, 86400, fun m n => decide (n < 4 * m), true⟩

/-- An upstream that lists one version. -/
def sampleClient : RegistryClient :=
  ⟨.pypi, fun _ => .ok ["2.0"], fun _ _ => .ok (), fun _ _ => .ok ()⟩

def sampleRow (key : String) : ArtifactMeta := ⟨key, "pypi", "left", "1.0", -5⟩

def sampleSweep (inventory : List ArtifactMeta) (now : DateTime) : Event :=
  .sweep now (.ok inventory) (fun _ => some .pypi) (fun _ => some sampleClient) fun _ => now

def oneFile : List ArtifactMeta := [sampleRow "pypi/left/1.0/left.whl"]

def twoFiles : List ArtifactMeta := oneFile ++ [sampleRow "pypi/left/1.0/left.tar.gz"]

def sampleKey : Key := ("pypi", "left", some "1.0")

theorem one_file_disappears_after_three_sweeps :
    let after := Runs.run (step samplePolicy ["pypi"]) World.empty
      [sampleSweep oneFile 0, sampleSweep oneFile 43200, sampleSweep oneFile 86400]
    (after.rows.lookup sampleKey).map UpstreamStatus.state = some .disappeared ∧
      ∀ row, after.rows.lookup sampleKey = some row → row.state = .disappeared →
        ∃ before window rest, after.history = before ++ window ++ rest ∧
          Evidence samplePolicy sampleKey window := by
  intro after
  refine ⟨by decide +kernel, ?_⟩
  intro row hrow hstate
  exact (disappeared_only_on_distinct_sweeps samplePolicy ["pypi"] _ (by decide +kernel)).1
    sampleKey row hrow hstate

/-- A release of two files is counted twice a sweep: two sweeps confirm it. -/
theorem two_files_disappear_after_two_sweeps :
    let after := Runs.run (step samplePolicy ["pypi"]) World.empty
      [sampleSweep twoFiles 0, sampleSweep twoFiles 86400]
    (after.rows.lookup sampleKey).map UpstreamStatus.state = some .disappeared ∧
      ¬ ∃ before window rest, after.history = before ++ window ++ rest ∧
        Evidence samplePolicy sampleKey window := by
  intro after
  refine ⟨by decide +kernel, ?_⟩
  rintro ⟨before, window, rest, hhistory, hevidence⟩
  have hlength : after.history.length = 2 := by decide +kernel
  have henough : 3 ≤ window.countP fun s => s.missed sampleKey := hevidence.enough
  have hle := List.countP_le_length (p := fun s : Seen => s.missed sampleKey) (l := window)
  rw [hhistory, List.length_append, List.length_append] at hlength
  omega

end Samples

end History

end BatleHub.UpstreamAudit
