import BatleHub.AuditTrail
import BatleHub.Lib.Runs

/-!
Where the batches of the calls in flight land. A call plans on a prefix of the chain, and the
store takes its batch only where that prefix is still the whole chain. The windows it knows
are then those in force: a batch without a record touches no sealed row, and one with a
record touches rows of that record's window alone.
-/
namespace BatleHub.TrailPlacement

open LocalPackages AuditEvents SealChain AuditStore AuditTrail Lib.Intervals Lib.Runs Lib.Slots

section Prefixes

/-- The records are numbered from one. -/
def Numbered (records : List SealRecord) : Prop :=
  ∀ view, view <+: records → headSeq view.getLast? = view.length

/-- A prefix with the chain's head is the chain. -/
theorem Numbered.eq_of_headSeq {view records : List SealRecord} (h : Numbered records)
    (hview : view <+: records) (hhead : headSeq view.getLast? = headSeq records.getLast?) :
    view = records := by
  rw [h view hview, h records List.prefix_rfl] at hhead
  have hlen : view.length = records.length := by exact_mod_cast hhead
  exact hview.eq_of_length hlen

theorem Numbered.append {records : List SealRecord} (h : Numbered records) {r : SealRecord}
    (hr : r.seq = records.getLast?.elim 1 fun p => p.seq + 1) : Numbered (records ++ [r]) := by
  intro view hview
  rcases List.prefix_concat_iff.mp hview with rfl | hbefore
  · have hlen := h records List.prefix_rfl
    rw [List.getLast?_concat, List.length_append, List.length_singleton]
    simp only [headSeq, Option.elim_some, hr]
    cases hlast : records.getLast? with
    | none =>
      rw [List.getLast?_eq_none_iff] at hlast
      simp [hlast]
    | some p =>
      simp only [hlast, headSeq, Option.elim_some] at hlen ⊢
      rw [hlen]
      simp
  · exact h view hbefore

theorem sealedWindows_isPrefix {view records : List SealRecord} (hview : view <+: records) :
    sealedWindows view <+: sealedWindows records :=
  (hview.filter _).map _

end Prefixes

/-- The chain's numbers and windows: the windows abut, lie on whole microseconds, and every
record is about one. -/
structure Shape (seals : List SealRecord) : Prop where
  numbered : Numbered seals
  windows : Abutting (sealedWindows seals)
  whole : ∀ window ∈ sealedWindows seals, WholeMicros window.1 ∧ WholeMicros window.2
  inForce : ∀ r ∈ seals, r.window ∈ sealedWindows seals

/-- The time lies in none of the windows. -/
def Outside (l : List Window) (t : DateTime) : Prop := ∀ window ∈ l, ¬ Holds window t

/-- The last of the windows sealed so far, if any, ends at `t`. -/
def Meets (view : List SealRecord) (t : DateTime) : Prop :=
  ∀ last, (sealedWindows view).getLast? = some last → last.2 = t

/-- The row the operation is about had a time with `p`, and still has if it is there. -/
def OpOn (w : World) (p : DateTime → Prop) (op : RowOp) : Prop :=
  op.id ∈ w.used ∧ ∀ e ∈ w.trail.events, e.id = op.id → p e.timestamp

/-- Groups of operations under windows of the chain read. -/
structure GroupsOk (w : World) (view : List SealRecord) (groups : List Group) : Prop where
  sealed : ∀ g ∈ groups, g.window ∈ sealedWindows view
  inside : ∀ g ∈ groups, ∀ op ∈ g.ops, OpOn w (Holds g.window) op

/-- The chain was `view` when the call read it, and its newest record was `head`. -/
structure Read (w : World) (view : List SealRecord) (head : Option SealRecord) : Prop where
  isPrefix : view <+: w.trail.seals
  head : head = view.getLast?

section Calls
variable (lib : Libraries) (policy : AuditPolicy)

def PhaseOk (w : World) (current : Rewrite) : BatchPhase → Prop
  | .ready => True
  | .windowsRead x => ∃ view, view <+: w.trail.seals ∧ x = windows view
  | .loose head ops groups => ∃ view, Read w view head ∧ GroupsOk w view groups ∧
      ∀ op ∈ ops, OpOn w (Outside (sealedWindows view)) op
  | .grouped head _ groups => ∃ view, Read w view head ∧ GroupsOk w view groups
  | .built head _ record ops groups => ∃ view, Read w view head ∧ GroupsOk w view groups ∧
      ∃ window ∈ sealedWindows view, (∀ op ∈ ops, OpOn w (Holds window) op) ∧
        ∃ rows affected, record = nextRecord lib head current.change.kind window rows affected

def StateOk (w : World) : State → Prop
  | .sealing _ head start _ => policy.sealing.isSome ∧ WholeMicros start ∧
      ∃ view, Read w view head ∧ Meets view start
  | .sealBuilt _ head record _ => policy.sealing.isSome ∧ ∃ view, Read w view head ∧
      ∃ window rows, window.1 < window.2 ∧ (WholeMicros window.1 ∧ WholeMicros window.2) ∧
        Meets view window.1 ∧ record = nextRecord lib head .seal window rows 0
  | .rewriting current _ _ _ phase => PhaseOk lib w current phase
  | .finished _ => True

/-- The chain has its shape, rows have ids of their own, and every call stands well. -/
structure Placed (w : World) : Prop where
  shape : Shape w.trail.seals
  unsealed : policy.sealing = none → w.trail.seals = []
  ids : ∀ e ∈ w.trail.events, e.id ∈ w.used
  unique : (w.trail.events.map (·.id)).Nodup
  tasks : ∀ id task, w.tasks id = some task → StateOk lib policy w task.state

end Calls

/-- The later world has the earlier chain and no new row under an old id. -/
structure Grows (w w' : World) : Prop where
  seals : w.trail.seals <+: w'.trail.seals
  used : ∀ id ∈ w.used, id ∈ w'.used
  rows : ∀ e ∈ w'.trail.events, e.id ∈ w.used →
    ∃ old ∈ w.trail.events, old.id = e.id ∧ old.timestamp = e.timestamp

section Growth
variable {w w' : World}

theorem OpOn.mono (hg : Grows w w') {p : DateTime → Prop} {op : RowOp} (h : OpOn w p op) :
    OpOn w' p op := by
  refine ⟨hg.used _ h.1, ?_⟩
  intro e he hid
  obtain ⟨old, hold, holdid, hts⟩ := hg.rows e he (hid ▸ h.1)
  rw [← hts]
  exact h.2 old hold (holdid.trans hid)

theorem GroupsOk.mono (hg : Grows w w') {view : List SealRecord} {groups : List Group}
    (h : GroupsOk w view groups) : GroupsOk w' view groups :=
  ⟨h.sealed, fun g hmem op hop => (h.inside g hmem op hop).mono hg⟩

theorem Read.mono (hg : Grows w w') {view : List SealRecord} {head : Option SealRecord}
    (h : Read w view head) : Read w' view head :=
  ⟨h.isPrefix.trans hg.seals, h.head⟩

variable {lib : Libraries} {policy : AuditPolicy}

theorem PhaseOk.mono (hg : Grows w w') {current : Rewrite} {phase : BatchPhase}
    (h : PhaseOk lib w current phase) : PhaseOk lib w' current phase := by
  cases phase with
  | ready => trivial
  | windowsRead x =>
    obtain ⟨view, hview, hx⟩ := h
    exact ⟨view, hview.trans hg.seals, hx⟩
  | loose head ops groups =>
    obtain ⟨view, hread, hgroups, hops⟩ := h
    exact ⟨view, hread.mono hg, hgroups.mono hg, fun op hop => (hops op hop).mono hg⟩
  | grouped head changed groups =>
    obtain ⟨view, hread, hgroups⟩ := h
    exact ⟨view, hread.mono hg, hgroups.mono hg⟩
  | built head changed record ops groups =>
    obtain ⟨view, hread, hgroups, window, hwindow, hops, hrecord⟩ := h
    exact ⟨view, hread.mono hg, hgroups.mono hg, window, hwindow,
      fun op hop => (hops op hop).mono hg, hrecord⟩

theorem StateOk.mono (hg : Grows w w') {state : State} (h : StateOk lib policy w state) :
    StateOk lib policy w' state := by
  cases state with
  | sealing now head start sealed =>
    obtain ⟨hon, hwhole, view, hread, hmeets⟩ := h
    exact ⟨hon, hwhole, view, hread.mono hg, hmeets⟩
  | sealBuilt now head record sealed =>
    obtain ⟨hon, view, hread, hbuilt⟩ := h
    exact ⟨hon, view, hread.mono hg, hbuilt⟩
  | rewriting current rest changed conflicts phase => exact PhaseOk.mono hg h
  | finished ok => trivial

end Growth

section Effects
variable (lib : Libraries) (policy : AuditPolicy)

/-- What one access of a call does to the store: nothing, a batch outside the sealed windows,
a new window at the end, or a batch inside one window with its record. -/
inductive Effect (w : World) : Trail → Prop
  | same : Effect w w.trail
  | loose (ops : List RowOp)
      (hops : ∀ op ∈ ops, OpOn w (Outside (sealedWindows w.trail.seals)) op) :
      Effect w ⟨stageAll ops w.trail.events, w.trail.seals⟩
  | sealed (window : Window) (rows : List AccessEvent) (hon : policy.sealing.isSome)
      (hnonempty : window.1 < window.2) (hwhole : WholeMicros window.1 ∧ WholeMicros window.2)
      (hmeets : Meets w.trail.seals window.1)
      (hdigest : rowsDigest lib (rowsIn w.trail.events window.1 window.2) = rowsDigest lib rows) :
      Effect w ⟨w.trail.events,
        w.trail.seals ++ [nextRecord lib w.trail.seals.getLast? .seal window rows 0]⟩
  | amended (ops : List RowOp) (kind : SealKind) (window : Window) (rows : List AccessEvent)
      (affected : ℕ) (hkind : kind ≠ .seal) (hwindow : window ∈ sealedWindows w.trail.seals)
      (hops : ∀ op ∈ ops, OpOn w (Holds window) op)
      (hdigest : rowsDigest lib (rowsIn (stageAll ops w.trail.events) window.1 window.2) =
        rowsDigest lib rows) :
      Effect w ⟨stageAll ops w.trail.events,
        w.trail.seals ++ [nextRecord lib w.trail.seals.getLast? kind window rows affected]⟩

variable {lib policy} {w w' : World} {trail' : Trail}

theorem Effect.events (h : Effect lib policy w trail') :
    ∃ ops, trail'.events = stageAll ops w.trail.events := by
  cases h with
  | same => exact ⟨[], rfl⟩
  | loose ops _ => exact ⟨ops, rfl⟩
  | sealed _ _ _ _ _ _ _ => exact ⟨[], rfl⟩
  | amended ops _ _ _ _ _ _ _ _ => exact ⟨ops, rfl⟩

theorem Effect.seals (h : Effect lib policy w trail') : w.trail.seals <+: trail'.seals := by
  cases h with
  | same => exact List.prefix_rfl
  | loose _ _ => exact List.prefix_rfl
  | sealed _ _ _ _ _ _ _ => exact List.prefix_append _ _
  | amended _ _ _ _ _ _ _ _ _ => exact List.prefix_append _ _

theorem Effect.grows (h : Effect lib policy w trail') (htrail : w'.trail = trail')
    (hused : w'.used = w.used) : Grows w w' where
  seals := htrail ▸ h.seals
  used := by
    intro id hid
    exact hused ▸ hid
  rows := by
    intro e he _
    obtain ⟨ops, hops⟩ := h.events
    rw [htrail, hops] at he
    obtain ⟨old, hold, hid, hts, -⟩ := exists_of_mem_stageAll he
    exact ⟨old, hold, hid, hts⟩

theorem Effect.shape (hs : Shape w.trail.seals) (h : Effect lib policy w trail') :
    Shape trail'.seals := by
  cases h with
  | same => exact hs
  | loose _ _ => exact hs
  | sealed window rows _ hnonempty hwhole hmeets _ =>
    have hwindows : sealedWindows (w.trail.seals ++
        [nextRecord lib w.trail.seals.getLast? .seal window rows 0]) =
        sealedWindows w.trail.seals ++ [window] := by
      rw [sealedWindows_append]
      rfl
    refine ⟨hs.numbered.append rfl, ?_, ?_, ?_⟩
    · rw [hwindows]
      exact hs.windows.append hnonempty hmeets
    · intro v hv
      rw [hwindows] at hv
      rcases List.mem_append.mp hv with hold | hnew
      · exact hs.whole v hold
      · rw [List.mem_singleton.mp hnew]
        exact hwhole
    · intro r hr
      rw [hwindows]
      rcases List.mem_append.mp hr with hold | hnew
      · exact List.mem_append_left _ (hs.inForce r hold)
      · rw [List.mem_singleton.mp hnew]
        exact List.mem_append_right _ List.mem_cons_self
  | amended ops kind window rows affected hkind hwindow _ _ =>
    have hwindows : sealedWindows (w.trail.seals ++
        [nextRecord lib w.trail.seals.getLast? kind window rows affected]) =
        sealedWindows w.trail.seals := by
      rw [sealedWindows_append]
      have hnot : ¬ (nextRecord lib w.trail.seals.getLast? kind window rows affected).kind = .seal :=
        hkind
      rw [if_neg hnot, List.append_nil]
    refine ⟨hs.numbered.append rfl, ?_, ?_, ?_⟩
    · rw [hwindows]
      exact hs.windows
    · rw [hwindows]
      exact hs.whole
    · intro r hr
      rw [hwindows]
      rcases List.mem_append.mp hr with hold | hnew
      · exact hs.inForce r hold
      · rw [List.mem_singleton.mp hnew]
        exact hwindow

theorem Effect.unsealed (hnone : policy.sealing = none → w.trail.seals = [])
    (h : Effect lib policy w trail') : policy.sealing = none → trail'.seals = [] := by
  intro hoff
  cases h with
  | same => exact hnone hoff
  | loose _ _ => exact hnone hoff
  | sealed _ _ hon _ _ _ _ => simp [hoff] at hon
  | amended _ _ window _ _ _ hwindow _ _ =>
    rw [hnone hoff] at hwindow
    exact absurd hwindow List.not_mem_nil

end Effects

section Accesses
variable {lib : Libraries} {truncateIp : String → String} {policy : AuditPolicy} {w : World}

/-- A batch was accepted: the chain is still the one read. -/
theorem Placed.eq_of_head (h : Placed lib policy w) {view : List SealRecord}
    {head : Option SealRecord} (hread : Read w view head)
    (hhead : headSeq head = headSeq w.trail.seals.getLast?) : view = w.trail.seals := by
  rw [hread.head] at hhead
  exact h.shape.numbered.eq_of_headSeq hread.isPrefix hhead

/-- The rows read are those the operations will find, by their ids. -/
theorem Placed.opOn (h : Placed lib policy w) {row : AccessEvent} (hrow : row ∈ w.trail.events)
    {op : RowOp} (hid : op.id = row.id) {p : DateTime → Prop} (hp : p row.timestamp) :
    OpOn w p op := by
  refine ⟨hid ▸ h.ids row hrow, ?_⟩
  intro e he heq
  have hsame : e = row := List.inj_on_of_nodup_map h.unique he hrow (heq.trans hid)
  rw [hsame]
  exact hp

theorem mem_of_candidates {events : List AccessEvent} {query : CandidateQuery}
    {createdBefore : Option DateTime} {limit : ℕ} {row : AccessEvent}
    (h : row ∈ candidates events query createdBefore limit) : row ∈ events := by
  have hsorted := List.mem_of_mem_take h
  rw [List.mem_insertionSort] at hsorted
  exact List.mem_of_mem_filter hsorted

/-- A plan on a prefix of the chain puts every operation where its row lies. -/
theorem Placed.plan (h : Placed lib policy w) (truncateIp : String → String) {view : List SealRecord}
    (hview : view <+: w.trail.seals) (change : Change) {rows : List AccessEvent}
    (hrows : ∀ row ∈ rows, row ∈ w.trail.events) :
    let plan := planRows truncateIp policy.sealing.isSome (windows view) change rows
    GroupsOk w view plan.groups ∧
      ∀ op ∈ plan.loose, OpOn w (Outside (sealedWindows view)) op := by
  have habut : Abutting (sealedWindows view) :=
    h.shape.windows.of_isPrefix (sealedWindows_isPrefix hview)
  have hplanned := planned_planRows truncateIp policy.sealing.isSome (windows view) change rows
  have hplace : ∀ row window, place policy.sealing.isSome (windows view) row = some window →
      window ∈ sealedWindows view ∧ Holds window row.timestamp := by
    intro row window hsome
    unfold place Windows.holding at hsome
    rw [byStart_eq habut] at hsome
    split at hsome
    · exact holding_eq_some hsome
    · cases hsome
  refine ⟨⟨?_, ?_⟩, ?_⟩
  · intro g hg
    obtain ⟨row, -, hrow⟩ := hplanned.window g hg
    exact (hplace row g.window hrow).1
  · intro g hg op hop
    obtain ⟨first, -, hfirst⟩ := hplanned.window g hg
    obtain ⟨row, hmem, hop, window, hwindow, hstart⟩ := hplanned.ops g hg op hop
    have hin := hplace row window hwindow
    have hsame : window = g.window := habut.eq_of_start hin.1 (hplace first g.window hfirst).1 hstart
    exact h.opOn (hrows row hmem) (op_id truncateIp hop) (hsame ▸ hin.2)
  · intro op hop
    obtain ⟨row, hmem, hop, hnone⟩ := hplanned.loose op hop
    refine h.opOn (hrows row hmem) (op_id truncateIp hop) ?_
    unfold place Windows.holding at hnone
    rw [byStart_eq habut] at hnone
    split at hnone
    · exact habut.not_holds_of_holding_none hnone
    · rename_i hoff
      have hempty : view = [] := by
        have hseals := h.unsealed (by simpa using hoff)
        rw [hseals] at hview
        exact List.prefix_nil.mp hview
      rw [hempty]
      intro window hwindow
      exact absurd hwindow List.not_mem_nil

/-- What an access of a call leaves: an effect on the store and a call that stands well
in any world with that store. -/
structure Access (lib : Libraries) (policy : AuditPolicy) (w : World) (next : Trail × State) :
    Prop where
  effect : Effect lib policy w next.1
  state : ∀ w' : World, w'.trail = next.1 → w'.used = w.used → StateOk lib policy w' next.2

/-- An access that only reads. -/
theorem access_still {state : State} (hstate : ∀ w' : World, w'.trail = w.trail →
    Grows w w' → StateOk lib policy w' state) : Access lib policy w (w.trail, state) := by
  refine ⟨.same, fun w' hw' hused => hstate w' hw' ?_⟩
  exact Effect.grows (.same : Effect lib policy w w.trail) hw' hused

theorem access_nextRewrite (rest : List Rewrite) :
    Access lib policy w (w.trail, nextRewrite rest) := by
  refine access_still fun w' _ _ => ?_
  cases rest with
  | nil => trivial
  | cons r rest => trivial

theorem access_retry (current : Rewrite) (rest : List Rewrite) (changed conflicts : ℕ) :
    Access lib policy w (w.trail, retry current rest changed conflicts) := by
  refine access_still fun w' _ _ => ?_
  unfold retry
  split
  · trivial
  · trivial

theorem kind_ne_seal (change : Change) : change.kind ≠ .seal := by
  cases change with
  | delete => simp [Change.kind]
  | pseudonymise => simp [Change.kind]
  | erase userId name => simp [Change.kind]

/-- The batch outside the sealed windows. -/
theorem Placed.access_loose (h : Placed lib policy w) {current : Rewrite} {rest : List Rewrite}
    {changed conflicts : ℕ} {head : Option SealRecord} {ops : List RowOp} {groups : List Group}
    (hs : PhaseOk lib w current (.loose head ops groups)) :
    Access lib policy w (rewriteStep lib truncateIp policy w.trail current rest changed conflicts
      (.loose head ops groups)) := by
  obtain ⟨view, hread, hgroups, hops⟩ := hs
  simp only [rewriteStep]
  split
  · rename_i trail' hok
    obtain ⟨hhead, hevents, hseals, -⟩ := apply_eq_ok hok
    have hview : view = w.trail.seals := by
      cases hon : policy.sealing with
      | none =>
        have hempty := h.unsealed hon
        have hleads := hread.isPrefix
        rw [hempty] at hleads ⊢
        exact List.prefix_nil.mp hleads
      | some secs => exact h.eq_of_head hread (hhead _ (by simp [hon]))
    have htrail : trail' = ⟨stageAll ops w.trail.events, w.trail.seals⟩ := by
      rw [← hevents, ← hseals rfl]
    have heffect : Effect lib policy w trail' := htrail ▸ .loose ops (hview ▸ hops)
    refine ⟨heffect, fun w' hw' hused => ?_⟩
    have hgrows := heffect.grows hw' hused
    exact ⟨view, hread.mono hgrows, hgroups.mono hgrows⟩
  · exact access_retry ..

/-- The batch inside one window, with its record. -/
theorem Placed.access_built (h : Placed lib policy w) {current : Rewrite} {rest : List Rewrite}
    {changed conflicts done : ℕ} {head : Option SealRecord} {record : SealRecord}
    {ops : List RowOp} {groups : List Group}
    (hs : PhaseOk lib w current (.built head done record ops groups)) :
    Access lib policy w (rewriteStep lib truncateIp policy w.trail current rest changed conflicts
      (.built head done record ops groups)) := by
  obtain ⟨view, hread, hgroups, window, hwindow, hops, rows, affected, hrecord⟩ := hs
  simp only [rewriteStep]
  split
  · rename_i trail' hok
    obtain ⟨hhead, hevents, -, hseals⟩ := apply_eq_ok hok
    obtain ⟨hseals, hdigest⟩ := hseals record rfl
    have hview : view = w.trail.seals := h.eq_of_head hread (hhead _ rfl)
    subst hview
    have htrail : trail' = ⟨stageAll ops w.trail.events,
        w.trail.seals ++ [nextRecord lib w.trail.seals.getLast? current.change.kind window rows
          affected]⟩ := by
      rw [← hevents, ← hread.head, ← hrecord, ← hseals]
    have heffect : Effect lib policy w trail' := by
      rw [htrail]
      refine .amended ops _ window rows affected (kind_ne_seal _) hwindow hops ?_
      rw [hevents, hrecord] at hdigest
      exact hdigest
    refine ⟨heffect, fun w' hw' hused => ?_⟩
    have hgrows := heffect.grows hw' hused
    -- the chain now read is the one with the record just added
    have hsame : sealedWindows w'.trail.seals = sealedWindows w.trail.seals := by
      rw [hw', hseals, sealedWindows_append, hrecord]
      have hnot : ¬ (nextRecord lib head current.change.kind window rows affected).kind = .seal :=
        kind_ne_seal _
      rw [if_neg hnot, List.append_nil]
    refine ⟨w'.trail.seals, ⟨List.prefix_rfl, ?_⟩, ?_⟩
    · rw [hw', hseals, List.getLast?_concat]
    · have hmono := hgroups.mono hgrows
      exact ⟨fun g hg => hsame ▸ hmono.sealed g hg, hmono.inside⟩
  · exact access_retry ..

theorem Placed.access_rewrite (h : Placed lib policy w) {current : Rewrite} {rest : List Rewrite}
    {changed conflicts : ℕ} {phase : BatchPhase} (hs : PhaseOk lib w current phase) :
    Access lib policy w
      (rewriteStep lib truncateIp policy w.trail current rest changed conflicts phase) := by
  cases phase with
  | ready =>
    simp only [rewriteStep]
    split
    · exact access_nextRewrite rest
    · refine access_still fun w' hw' _ => ?_
      exact ⟨w.trail.seals, hw' ▸ List.prefix_rfl, rfl⟩
  | windowsRead x =>
    obtain ⟨view, hview, rfl⟩ := hs
    have hrows : ∀ row ∈ candidates w.trail.events current.query current.createdBefore batchSize,
        row ∈ w.trail.events := fun row hrow => mem_of_candidates hrow
    have hplan := h.plan truncateIp hview current.change hrows
    simp only [rewriteStep]
    split
    · exact access_nextRewrite rest
    · split
      · refine access_still fun w' hw' hgrows => ?_
        exact ⟨view, ⟨hw' ▸ hview, rfl⟩, hplan.1.mono hgrows⟩
      · refine access_still fun w' hw' hgrows => ?_
        exact ⟨view, ⟨hw' ▸ hview, rfl⟩, hplan.1.mono hgrows,
          fun op hop => (hplan.2 op hop).mono hgrows⟩
  | loose head ops groups => exact h.access_loose hs
  | grouped head done groups =>
    obtain ⟨view, hread, hgroups⟩ := hs
    cases groups with
    | nil =>
      simp only [rewriteStep]
      split
      · exact access_nextRewrite rest
      · exact access_still fun w' _ _ => trivial
    | cons g groups =>
      refine access_still fun w' hw' hgrows => ?_
      have hmono := hgroups.mono hgrows
      refine ⟨view, hread.mono hgrows, ⟨?_, ?_⟩, g.window, hmono.sealed g List.mem_cons_self,
        hmono.inside g List.mem_cons_self, _, _, rfl⟩
      · intro g' hg'
        exact hmono.sealed g' (List.mem_cons_of_mem g hg')
      · intro g' hg'
        exact hmono.inside g' (List.mem_cons_of_mem g hg')
  | built head done record ops groups => exact h.access_built hs

theorem intervalStep_pos {secs : ℕ} (h : 0 < secs) : 0 < intervalStep secs := by
  unfold intervalStep
  omega

theorem wholeMicros_intervalStep (secs : ℕ) : WholeMicros (intervalStep secs) := by
  refine ⟨secs * 1000000, ?_⟩
  unfold intervalStep
  omega

theorem wholeMicros_align (t : DateTime) (secs : ℕ) : WholeMicros (align t secs) := by
  refine ⟨(t / 1000000000 - t / 1000000000 % secs) * 1000000, ?_⟩
  unfold align
  omega

theorem access_sealing {now : DateTime} {head : Option SealRecord} {start : DateTime} {sealed : ℕ}
    (hs : StateOk lib policy w (.sealing now head start sealed)) :
    Access lib policy w (advance lib truncateIp policy w.trail (.sealing now head start sealed)) := by
  obtain ⟨hon, hwhole, view, hread, hmeets⟩ := hs
  obtain ⟨secs, hsecs⟩ := Option.isSome_iff_exists.mp hon
  have hpos := intervalStep_pos (policy.interval_pos secs hsecs)
  simp only [advance]
  split
  · refine access_still fun w' hw' hgrows => ?_
    simp only [hsecs, Option.map_some, Option.getD_some]
    have hend : WholeMicros (start + intervalStep secs) :=
      Int.dvd_add hwhole (wholeMicros_intervalStep secs)
    exact ⟨hon, view, hread.mono hgrows, _, _, Int.lt_add_of_pos_right start hpos,
      ⟨hwhole, hend⟩, hmeets, rfl⟩
  · exact access_still fun w' _ _ => trivial

/-- The batch that seals a window. -/
theorem Placed.access_sealBuilt (h : Placed lib policy w) {now : DateTime}
    {head : Option SealRecord} {record : SealRecord} {sealed : ℕ}
    (hs : StateOk lib policy w (.sealBuilt now head record sealed)) :
    Access lib policy w (advance lib truncateIp policy w.trail (.sealBuilt now head record sealed)) := by
  obtain ⟨hon, view, hread, window, rows, hnonempty, hwhole, hmeets, hrecord⟩ := hs
  simp only [advance]
  split
  · rename_i trail' hok
    obtain ⟨hhead, hevents, -, hseals⟩ := apply_eq_ok hok
    obtain ⟨hseals, hdigest⟩ := hseals record rfl
    have hview : view = w.trail.seals := h.eq_of_head hread (hhead _ rfl)
    subst hview
    have htrail : trail' = ⟨w.trail.events,
        w.trail.seals ++ [nextRecord lib w.trail.seals.getLast? .seal window rows 0]⟩ := by
      rw [← hread.head, ← hrecord, ← hseals]
      exact congrArg (Trail.mk · trail'.seals) hevents
    have heffect : Effect lib policy w trail' := by
      rw [htrail]
      refine .sealed window rows hon hnonempty hwhole hmeets ?_
      rw [hevents, hrecord] at hdigest
      exact hdigest
    have hstart : WholeMicros record.windowEnd := hrecord ▸ hwhole.2
    refine ⟨heffect, fun w' hw' hused => ⟨hon, hstart, w'.trail.seals, ⟨List.prefix_rfl, ?_⟩, ?_⟩⟩
    · rw [hw', hseals, List.getLast?_concat]
    · intro last hlast
      have hkind : record.kind = .seal := by rw [hrecord]; rfl
      rw [hw', hseals, sealedWindows_append, if_pos hkind, List.getLast?_concat] at hlast
      exact congrArg Prod.snd (Option.some.inj hlast).symm
  · exact access_still fun w' _ _ => trivial

theorem Placed.access (h : Placed lib policy w) {state : State} (hs : StateOk lib policy w state) :
    Access lib policy w (advance lib truncateIp policy w.trail state) := by
  cases state with
  | sealing now head start sealed => exact access_sealing hs
  | sealBuilt now head record sealed => exact h.access_sealBuilt hs
  | rewriting current rest changed conflicts phase => exact h.access_rewrite hs
  | finished ok => exact access_still fun w' _ _ => trivial

/-- A call begins on the chain as it is. -/
theorem Placed.access_begin (h : Placed lib policy w) (hmacHex : String → String → String)
    (call : Call) : Access lib policy w (w.trail, begin hmacHex policy w.trail call) := by
  cases call with
  | sealTick now =>
    simp only [begin]
    cases hon : policy.sealing with
    | none => exact access_still fun w' _ _ => trivial
    | some secs =>
      refine access_still fun w' hw' _ => ?_
      have huntil : (windows w.trail.seals).sealedUntil =
          (sealedWindows w.trail.seals).getLast?.map Prod.snd := by
        unfold Windows.sealedUntil
        rw [byStart_eq h.shape.windows]
      refine ⟨by simp [hon], ?_, w.trail.seals, ⟨hw' ▸ List.prefix_rfl, rfl⟩, ?_⟩
      · rw [huntil]
        cases hlast : (sealedWindows w.trail.seals).getLast? with
        | none =>
          have hstep := wholeMicros_intervalStep secs
          exact Int.dvd_sub (Int.dvd_sub (wholeMicros_align now _) hstep) hstep
        | some last => exact (h.shape.whole last (List.mem_of_getLast? hlast)).2
      · intro last hlast
        rw [huntil, hlast]
        rfl
  | lifecycleTick now =>
    simp only [begin]
    split
    · exact access_nextRewrite _
    · split
      · exact access_nextRewrite _
      · exact access_still fun w' _ _ => trivial
  | purge before =>
    simp only [begin]
    exact access_nextRewrite _
  | erase userId =>
    simp only [begin]
    split
    · exact access_still fun w' _ _ => trivial
    · split
      · exact access_still fun w' _ _ => trivial
      · exact access_nextRewrite _

end Accesses

section Run
variable (lib : Libraries) (hmacHex : String → String → String) (truncateIp : String → String)
  (policy : AuditPolicy)

/-- A row comes with an id of its own. -/
def FreshId (w : World) : Event → Prop
  | .insert e => e.id ∉ w.used
  | _ => True

variable {lib hmacHex truncateIp policy} {w : World}

/-- A call that has taken an access, or begun. -/
theorem Placed.setTask (h : Placed lib policy w) {next : Trail × State}
    (hnext : Access lib policy w next) (id : ℕ) (call : Call) :
    Placed lib policy (w.setTask id next.1 ⟨call, next.2⟩) := by
  have hgrows : Grows w (w.setTask id next.1 ⟨call, next.2⟩) := hnext.effect.grows rfl rfl
  obtain ⟨ops, hops⟩ := hnext.effect.events
  refine ⟨hnext.effect.shape h.shape, hnext.effect.unsealed h.unsealed, ?_, ?_, ?_⟩
  · intro e he
    obtain ⟨old, hold, hid, -⟩ := exists_of_mem_stageAll (hops ▸ he)
    exact hid ▸ h.ids old hold
  · have hsub : (next.1.events.map (·.id)).Sublist (w.trail.events.map (·.id)) := by
      rw [hops]
      exact ids_stageAll_sublist ops w.trail.events
    exact hsub.nodup h.unique
  · intro id' task htask
    rcases update_eq_some htask with hnew | hold
    · obtain rfl := Option.some.inj hnew
      exact hnext.state _ rfl rfl
    · exact (h.tasks id' task hold).mono hgrows

theorem placed_initial : Placed lib policy World.initial where
  shape := by
    refine ⟨?_, abutting_nil, by simp [World.initial, sealedWindows], by simp [World.initial]⟩
    intro view hview
    rw [List.prefix_nil.mp hview]
    rfl
  unsealed := fun _ => rfl
  ids := by simp [World.initial]
  unique := List.nodup_nil
  tasks := by simp [World.initial]

/-- A step that is no insert leaves the world as it is or is one call's access. -/
theorem Placed.step_cases (h : Placed lib policy w) (hmacHex : String → String → String)
    (truncateIp : String → String) (event : Event) :
    (∃ e, event = .insert e) ∨ step lib hmacHex truncateIp policy w event = w ∨
      ∃ id call next, Access lib policy w next ∧
        step lib hmacHex truncateIp policy w event = w.setTask id next.1 ⟨call, next.2⟩ := by
  rcases AuditTrail.step_cases lib hmacHex truncateIp policy w event with
    hinsert | hsame | ⟨id, call, ok, state, -, -, hstate, hstep⟩ |
    ⟨id, ok, task, next, -, htask, hnext, hstep⟩
  · exact .inl hinsert
  · exact .inr (.inl hsame)
  · refine .inr (.inr ⟨id, call, (w.trail, state), ?_, hstep⟩)
    rcases hstate with rfl | rfl
    · exact h.access_begin hmacHex call
    · exact access_still fun _ _ _ => trivial
  · refine .inr (.inr ⟨id, task.call, next, ?_, hstep⟩)
    rcases hnext with ⟨-, rfl⟩ | ⟨rfl, -⟩
    · exact h.access (h.tasks id task htask)
    · exact access_still fun _ _ _ => trivial

theorem Placed.step (h : Placed lib policy w) {event : Event} (hfresh : FreshId w event) :
    Placed lib policy (step lib hmacHex truncateIp policy w event) := by
  rcases h.step_cases hmacHex truncateIp event with
    ⟨e, rfl⟩ | hsame | ⟨id, call, next, hnext, hstep⟩
  · have hgrows : Grows w (AuditTrail.step lib hmacHex truncateIp policy w (.insert e)) := by
      refine ⟨List.prefix_rfl, fun id hid => List.mem_cons_of_mem e.id hid, ?_⟩
      intro x hx hid
      rcases List.mem_append.mp hx with hold | hnew
      · exact ⟨x, hold, rfl, rfl⟩
      · rw [List.mem_singleton.mp hnew] at hid
        exact absurd hid hfresh
    refine ⟨h.shape, h.unsealed, ?_, ?_, fun id task htask => (h.tasks id task htask).mono hgrows⟩
    · intro x hx
      rcases List.mem_append.mp hx with hold | hnew
      · exact List.mem_cons_of_mem e.id (h.ids x hold)
      · rw [List.mem_singleton.mp hnew]
        exact List.mem_cons_self
    · have hnew : e.id ∉ w.trail.events.map (·.id) := by
        intro hmem
        obtain ⟨old, hold, hid⟩ := List.mem_map.mp hmem
        exact hfresh (hid ▸ h.ids old hold)
      simp only [AuditTrail.step, List.map_append, List.map_cons, List.map_nil]
      exact List.nodup_append.mpr ⟨h.unique, List.nodup_singleton _, by
        intro a ha b hb hab
        rw [List.mem_singleton.mp hb] at hab
        exact hnew (hab ▸ ha)⟩
  · rw [hsame]
    exact h
  · rw [hstep]
    exact h.setTask hnext id call

end Run

end BatleHub.TrailPlacement
