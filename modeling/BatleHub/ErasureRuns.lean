import BatleHub.ErasedRows
import BatleHub.SealedRuns

/-!
Erasure under concurrency. A call writes all mutable columns of a row as it read them, so a
batch taken after the row has changed writes the old subject back. Inside a sealed window
this cannot happen: a change of the window's rows moves the chain, and the batch is refused.
A batch without a record is held to the chain's head alone; an erasure is complete in every
run in which no such batch is applied over a row that has changed.
-/
namespace BatleHub.ErasureRuns

open LocalPackages AuditEvents SealChain AuditStore AuditTrail ErasedRows SealedRuns
  TrailPlacement Lib.Intervals Lib.Runs Lib.Slots Lib.Texts

section Fresh
variable (truncateIp : String → String)

/-- The operation writes the user and the detail its change makes of the row stored now. -/
def FreshOp (change : Change) (events : List AccessEvent) (op : RowOp) : Prop :=
  ∀ new, op = .replace new → ∀ e ∈ events, e.id = new.id →
    new.userId = (rewritten truncateIp change e).userId ∧
      new.detail = (rewritten truncateIp change e).detail

/-- Unless the chain has moved, the operations in sealed windows are fresh. -/
def GroupsFresh (w : World) (change : Change) (head : Option SealRecord) (groups : List Group) :
    Prop :=
  headSeq head = headSeq w.trail.seals.getLast? →
    ∀ g ∈ groups, ∀ op ∈ g.ops, FreshOp truncateIp change w.trail.events op

def PhaseFresh (w : World) (current : Rewrite) : BatchPhase → Prop
  | .loose head _ groups => Sorted groups ∧ GroupsFresh truncateIp w current.change head groups
  | .grouped head _ groups => Sorted groups ∧ GroupsFresh truncateIp w current.change head groups
  | .built head _ record ops groups => Sorted (⟨record.window, ops⟩ :: groups) ∧
      GroupsFresh truncateIp w current.change head (⟨record.window, ops⟩ :: groups)
  | _ => True

def StateFresh (w : World) : State → Prop
  | .rewriting current _ _ _ phase => PhaseFresh truncateIp w current phase
  | _ => True

/-- Between the worlds the chain has moved, or the rows in its windows are as they were. -/
def Keeps (w w' : World) : Prop :=
  w.trail.seals.length < w'.trail.seals.length ∨
    (w'.trail.seals = w.trail.seals ∧ ∀ e ∈ w'.trail.events, e.id ∈ w.used →
      ¬ Outside (sealedWindows w.trail.seals) e.timestamp → e ∈ w.trail.events)

variable {truncateIp} {lib : Libraries} {policy : AuditPolicy} {w w' : World}

theorem keeps_of_effect {trail' : Trail} (h : Effect lib policy w trail')
    (htrail : w'.trail = trail') : Keeps w w' := by
  subst htrail
  generalize htrail : w'.trail = trail' at h
  cases h with
  | same =>
    right
    rw [htrail]
    exact ⟨rfl, fun e he _ _ => he⟩
  | loose ops hops =>
    right
    rw [htrail]
    refine ⟨rfl, ?_⟩
    intro e he _ hinside
    rcases mem_stageAll he with hsame | ⟨new, hnew, old, hold, hid, rfl⟩
    · exact hsame
    · exact absurd ((hops _ hnew).2 old hold hid) hinside
  | sealed window rows _ _ _ _ _ =>
    left
    rw [htrail]
    simp
  | amended ops kind window rows affected _ _ _ _ =>
    left
    rw [htrail]
    simp

theorem GroupsFresh.mono {view : List SealRecord} {head : Option SealRecord}
    {groups : List Group} {change : Change} (h : GroupsFresh truncateIp w change head groups)
    (hread : Read w view head) (hgroups : GroupsOk w view groups) (hs : Shape w.trail.seals)
    (hs' : Shape w'.trail.seals) (hgrows : Grows w w') (hkeeps : Keeps w w') :
    GroupsFresh truncateIp w' change head groups := by
  intro hhead g hg op hop
  rcases hkeeps with hmoved | ⟨hseals, hrows⟩
  · exfalso
    rw [hread.head, hs.numbered view hread.isPrefix,
      hs'.numbered _ List.prefix_rfl] at hhead
    have hlen := hread.isPrefix.length_le
    omega
  · rw [hseals] at hhead
    intro new hnew e he hid
    refine h hhead g hg op hop new hnew e (hrows e he ?_ ?_) hid
    · have hused := (hgroups.inside g hg op hop).1
      rw [hnew] at hused
      exact hid ▸ hused
    · have hin := ((hgroups.inside g hg op hop).mono hgrows).2 e he (by rw [hnew]; exact hid)
      intro hout
      have hwindow := (sealedWindows_isPrefix hread.isPrefix).subset (hgroups.sealed g hg)
      exact hout g.window hwindow hin

/-- The groups of a phase with the batch already built, as one list. -/
theorem groupsOk_built {view : List SealRecord} {groups : List Group} {window : Window}
    {ops : List RowOp} (hgroups : GroupsOk w view groups) (hwindow : window ∈ sealedWindows view)
    (hops : ∀ op ∈ ops, OpOn w (Holds window) op) : GroupsOk w view (⟨window, ops⟩ :: groups) where
  sealed := by
    intro g hg
    rcases List.mem_cons.mp hg with rfl | hg
    · exact hwindow
    · exact hgroups.sealed g hg
  inside := by
    intro g hg
    rcases List.mem_cons.mp hg with rfl | hg
    · exact hops
    · exact hgroups.inside g hg

theorem StateFresh.mono {state : State} (h : StateFresh truncateIp w state)
    (hok : StateOk lib policy w state) (hs : Shape w.trail.seals) (hs' : Shape w'.trail.seals)
    (hgrows : Grows w w') (hkeeps : Keeps w w') : StateFresh truncateIp w' state := by
  cases state with
  | sealing now head start sealed => trivial
  | sealBuilt now head record sealed => trivial
  | finished ok => trivial
  | rewriting current rest changed conflicts phase =>
    cases phase with
    | ready => trivial
    | windowsRead x => trivial
    | loose head ops groups =>
      obtain ⟨view, hread, hgroups, -⟩ := hok
      exact ⟨h.1, h.2.mono hread hgroups hs hs' hgrows hkeeps⟩
    | grouped head done groups =>
      obtain ⟨view, hread, hgroups⟩ := hok
      exact ⟨h.1, h.2.mono hread hgroups hs hs' hgrows hkeeps⟩
    | built head done record ops groups =>
      obtain ⟨view, hread, hgroups, window, hwindow, hops, rows, affected, rfl⟩ := hok
      exact ⟨h.1, h.2.mono hread (groupsOk_built hgroups hwindow hops) hs hs' hgrows hkeeps⟩

/-- The operations of a plan are those of the rows just read. -/
theorem freshOp_of_row (h : Placed lib policy w) {change : Change} {row : AccessEvent} {op : RowOp}
    (hrow : row ∈ w.trail.events) (hop : change.op truncateIp row = some op) :
    FreshOp truncateIp change w.trail.events op := by
  intro new hnew e he hid
  subst hnew
  have hsame : e = row := by
    refine List.inj_on_of_nodup_map h.unique he hrow ?_
    exact hid.trans (op_id truncateIp hop)
  rw [op_eq_replace hop, hsame]
  exact ⟨rfl, rfl⟩

theorem stateFresh_nextRewrite (rest : List Rewrite) :
    StateFresh truncateIp w (nextRewrite rest) := by
  cases rest with
  | nil => trivial
  | cons r rest => trivial

theorem stateFresh_retry (current : Rewrite) (rest : List Rewrite) (changed conflicts : ℕ) :
    StateFresh truncateIp w (retry current rest changed conflicts) := by
  unfold retry
  split
  · trivial
  · trivial

/-- A batch just applied in its own window has left the other windows' operations fresh. -/
theorem groupsFresh_after_built (hp : Placed lib policy w) {view : List SealRecord}
    {window : Window} {ops : List RowOp} {groups : List Group} {change : Change}
    (hview : view = w.trail.seals) (hgroups : GroupsOk w view groups)
    (hwindow : window ∈ sealedWindows view) (hops : ∀ op ∈ ops, OpOn w (Holds window) op)
    (hsorted : Sorted (⟨window, ops⟩ :: groups))
    (hfresh : ∀ g ∈ groups, ∀ op ∈ g.ops, FreshOp truncateIp change w.trail.events op) :
    ∀ g ∈ groups, ∀ op ∈ g.ops, FreshOp truncateIp change (stageAll ops w.trail.events) op := by
  subst hview
  intro g hg op hop new hnew e he hid
  rcases mem_stageAll he with hsame | ⟨written, hwritten, old, hold, holdid, rfl⟩
  · exact hfresh g hg op hop new hnew e hsame hid
  · exfalso
    have hin : Holds window old.timestamp := (hops _ hwritten).2 old hold holdid
    have hin' : Holds g.window old.timestamp := by
      refine (hgroups.inside g hg op hop).2 old hold ?_
      rw [hnew]
      exact hid
    have heq := hp.shape.windows.eq_of_holds hwindow (hgroups.sealed g hg) hin hin'
    have hlt : window.1 < g.window.1 := (List.pairwise_cons.mp hsorted).1 g hg
    rw [heq] at hlt
    exact lt_irrefl _ hlt

theorem phaseFresh_rewriteStep (hp : Placed lib policy w) {current : Rewrite}
    {rest : List Rewrite} {changed conflicts : ℕ} {phase : BatchPhase}
    (hok : PhaseOk lib w current phase) (h : PhaseFresh truncateIp w current phase)
    (heffect : Effect lib policy w
      (rewriteStep lib truncateIp policy w.trail current rest changed conflicts phase).1)
    (htrail : w'.trail =
      (rewriteStep lib truncateIp policy w.trail current rest changed conflicts phase).1)
    (hused : w'.used = w.used) (hs' : Shape w'.trail.seals) :
    StateFresh truncateIp w'
      (rewriteStep lib truncateIp policy w.trail current rest changed conflicts phase).2 := by
  have hgrows : Grows w w' := heffect.grows htrail hused
  have hkeeps : Keeps w w' := keeps_of_effect heffect htrail
  -- the trail after the access and the call's new state depend on the same branches
  clear heffect
  revert htrail
  cases phase with
  | ready =>
    simp only [rewriteStep]
    split
    · intro _
      exact stateFresh_nextRewrite rest
    · intro _
      trivial
  | windowsRead x =>
    have hplanned := planned_planRows truncateIp policy.sealing.isSome x current.change
      (candidates w.trail.events current.query current.createdBefore batchSize)
    have hfresh : ∀ g ∈ (planRows truncateIp policy.sealing.isSome x current.change
        (candidates w.trail.events current.query current.createdBefore batchSize)).groups,
        ∀ op ∈ g.ops, FreshOp truncateIp current.change w.trail.events op := by
      intro g hg op hop
      obtain ⟨row, hrow, hrowop, -⟩ := hplanned.ops g hg op hop
      exact freshOp_of_row hp (mem_of_candidates hrow) hrowop
    simp only [rewriteStep]
    split
    · intro _
      exact stateFresh_nextRewrite rest
    · split
      · intro htrail
        exact ⟨hplanned.sorted, fun _ => htrail ▸ hfresh⟩
      · intro htrail
        exact ⟨hplanned.sorted, fun _ => htrail ▸ hfresh⟩
  | loose head ops groups =>
    obtain ⟨view, hread, hgroups, -⟩ := hok
    simp only [rewriteStep]
    split
    · intro _
      exact ⟨h.1, h.2.mono hread hgroups hp.shape hs' hgrows hkeeps⟩
    · intro _
      exact stateFresh_retry ..
  | grouped head done groups =>
    cases groups with
    | nil =>
      simp only [rewriteStep]
      split
      · intro _
        exact stateFresh_nextRewrite rest
      · intro _
        trivial
    | cons g groups =>
      intro htrail
      change w'.trail = w.trail at htrail
      refine ⟨h.1, ?_⟩
      intro hhead
      rw [htrail] at hhead ⊢
      exact h.2 hhead
  | built head done record ops groups =>
    obtain ⟨view, hread, hgroups, window, hwindow, hops, rows, affected, rfl⟩ := hok
    simp only [rewriteStep]
    split
    · rename_i trail' happly
      intro htrail
      obtain ⟨hhead, hevents, -, -⟩ := apply_eq_ok happly
      have hread' := hp.eq_of_head hread (hhead _ rfl)
      refine ⟨(List.pairwise_cons.mp h.1).2, fun _ => ?_⟩
      rw [htrail]
      change ∀ g ∈ groups, ∀ op ∈ g.ops, FreshOp truncateIp current.change trail'.events op
      rw [hevents]
      refine groupsFresh_after_built hp hread' hgroups hwindow hops h.1 ?_
      intro g hg
      exact h.2 (hhead _ rfl) g (List.mem_cons_of_mem _ hg)
    · intro _
      exact stateFresh_retry ..

theorem stateFresh_advance (hp : Placed lib policy w) {state : State}
    (hok : StateOk lib policy w state) (h : StateFresh truncateIp w state)
    (hw' : w'.trail = (advance lib truncateIp policy w.trail state).1) (hused : w'.used = w.used)
    (hs' : Shape w'.trail.seals) :
    StateFresh truncateIp w' (advance lib truncateIp policy w.trail state).2 := by
  have haccess : Access lib policy w (advance lib truncateIp policy w.trail state) := hp.access hok
  cases state with
  | sealing now head start sealed =>
    simp only [advance]
    split
    · trivial
    · trivial
  | sealBuilt now head record sealed =>
    simp only [advance]
    split
    · trivial
    · trivial
  | finished ok => trivial
  | rewriting current rest changed conflicts phase =>
    exact phaseFresh_rewriteStep hp hok h haccess.effect hw' hused hs'

theorem stateFresh_begin (hmacHex : String → String → String) (call : Call) :
    StateFresh truncateIp w' (begin hmacHex policy w.trail call) := by
  cases call with
  | sealTick now =>
    simp only [begin]
    split
    · trivial
    · trivial
  | lifecycleTick now =>
    simp only [begin]
    split
    · exact stateFresh_nextRewrite _
    · split
      · exact stateFresh_nextRewrite _
      · trivial
  | purge before =>
    simp only [begin]
    exact stateFresh_nextRewrite _
  | erase userId =>
    simp only [begin]
    split
    · trivial
    · split
      · trivial
      · exact stateFresh_nextRewrite _

end Fresh

section Calls
variable {lib : Libraries} {hmacHex : String → String → String} {truncateIp : String → String}
  {policy : AuditPolicy}

/-- A batch of an erasure has something to do, so its end is not taken for the last one. -/
def Busy : BatchPhase → Prop
  | .ready => True
  | .windowsRead _ => True
  | .loose _ ops groups => ops ≠ [] ∧ ∀ g ∈ groups, g.ops ≠ []
  | .grouped _ done groups => (0 < done ∨ groups ≠ []) ∧ ∀ g ∈ groups, g.ops ≠ []
  | .built _ _ _ ops groups => ops ≠ [] ∧ ∀ g ∈ groups, g.ops ≠ []

/-- The one rewrite of `erase(userId)`. -/
structure Erases (userId : String) (current : Rewrite) (rest : List Rewrite) : Prop where
  query : current.query = .subject userId
  createdBefore : current.createdBefore = none
  budget : current.budget = none
  change : ∃ name, current.change = .erase userId name
  last : rest = []
  isUser : ¬ IsPseudonym userId

/-- A call renames to pseudonyms only, and an erasure is at its one rewrite. -/
def CallOk (call : Call) : State → Prop
  | .rewriting current rest _ _ phase => (∀ r ∈ current :: rest, Renames r.change) ∧
      ∀ userId, call = .erase userId → Erases userId current rest ∧ Busy phase
  | .finished done => ∀ userId, call = .erase userId → done = true → ¬ IsPseudonym userId
  | _ => ∀ userId, call ≠ .erase userId

theorem callOk_failed (call : Call) : CallOk call (.finished false) := by
  intro userId _ hdone
  cases hdone

/-- The rest of a call's rewrites; an erasure has none. -/
theorem callOk_nextRewrite {call : Call} {current : Rewrite} {rest : List Rewrite}
    (hrenames : ∀ r ∈ current :: rest, Renames r.change)
    (herases : ∀ userId, call = .erase userId → Erases userId current rest) :
    CallOk call (nextRewrite rest) := by
  cases rest with
  | nil =>
    intro userId hcall _
    exact (herases userId hcall).isUser
  | cons r rest =>
    refine ⟨fun x hx => hrenames x (List.mem_cons_of_mem current hx), ?_⟩
    intro userId hcall
    exact absurd (herases userId hcall).last (by simp)

theorem callOk_retry {call : Call} {current : Rewrite} {rest : List Rewrite}
    (hrenames : ∀ r ∈ current :: rest, Renames r.change)
    (herases : ∀ userId, call = .erase userId → Erases userId current rest)
    (changed conflicts : ℕ) : CallOk call (retry current rest changed conflicts) := by
  unfold retry
  split
  · exact callOk_failed call
  · exact ⟨hrenames, fun userId hcall => ⟨herases userId hcall, trivial⟩⟩

/-- An erasure has an operation for each row that it finds. -/
theorem erases_op {userId : String} {current : Rewrite} {rest : List Rewrite}
    (herases : Erases userId current rest) (hrenames : Renames current.change)
    {events : List AccessEvent} {row : AccessEvent}
    (hrow : row ∈ candidates events current.query current.createdBefore batchSize) :
    current.change.op truncateIp row ≠ none := by
  obtain ⟨name, hchange⟩ := herases.change
  have hne : name ≠ userId := by
    intro heq
    exact herases.isUser (heq ▸ hrenames userId name hchange)
  rw [herases.query] at hrow
  rw [hchange]
  exact erase_op_isSome hne (matches_of_candidates hrow)

theorem callOk_rewriteStep {call : Call} {trail : Trail} {current : Rewrite}
    {rest : List Rewrite} {changed conflicts : ℕ} {phase : BatchPhase}
    (h : CallOk call (.rewriting current rest changed conflicts phase)) :
    CallOk call
      (rewriteStep lib truncateIp policy trail current rest changed conflicts phase).2 := by
  obtain ⟨hrenames, herases⟩ := h
  have herase : ∀ userId, call = .erase userId → Erases userId current rest :=
    fun userId hcall => (herases userId hcall).1
  cases phase with
  | ready =>
    simp only [rewriteStep]
    split
    · exact callOk_nextRewrite hrenames herase
    · exact ⟨hrenames, fun userId hcall => ⟨herase userId hcall, trivial⟩⟩
  | windowsRead x =>
    have hplanned := planned_planRows truncateIp policy.sealing.isSome x current.change
      (candidates trail.events current.query current.createdBefore batchSize)
    simp only [rewriteStep]
    split
    · exact callOk_nextRewrite hrenames herase
    · rename_i hrows
      split
      · rename_i hloose
        refine ⟨hrenames, fun userId hcall => ⟨herase userId hcall, ?_, hplanned.nonempty⟩⟩
        right
        exact hplanned.groups_ne_nil (fun hnil => hrows (List.isEmpty_iff.mpr hnil))
          (fun row => erases_op (herase userId hcall) (hrenames current List.mem_cons_self))
          (List.isEmpty_iff.mp hloose)
      · rename_i hloose
        refine ⟨hrenames, fun userId hcall => ⟨herase userId hcall, ?_, hplanned.nonempty⟩⟩
        simpa using hloose
  | loose head ops groups =>
    simp only [rewriteStep]
    split
    · refine ⟨hrenames, fun userId hcall => ⟨herase userId hcall, ?_⟩⟩
      obtain ⟨-, hops, hgroups⟩ := herases userId hcall
      exact ⟨.inl (List.length_pos_iff.mpr hops), hgroups⟩
    · exact callOk_retry hrenames herase changed conflicts
  | grouped head done groups =>
    cases groups with
    | nil =>
      simp only [rewriteStep]
      split
      · exact callOk_nextRewrite hrenames herase
      · exact ⟨hrenames, fun userId hcall => ⟨herase userId hcall, trivial⟩⟩
    | cons g groups =>
      refine ⟨hrenames, fun userId hcall => ⟨herase userId hcall, ?_⟩⟩
      obtain ⟨-, -, hgroups⟩ := herases userId hcall
      exact ⟨hgroups g List.mem_cons_self, fun x hx => hgroups x (List.mem_cons_of_mem g hx)⟩
  | built head done record ops groups =>
    simp only [rewriteStep]
    split
    · refine ⟨hrenames, fun userId hcall => ⟨herase userId hcall, ?_⟩⟩
      obtain ⟨-, hops, hgroups⟩ := herases userId hcall
      have hpos := List.length_pos_iff.mpr hops
      exact ⟨.inl (by omega), hgroups⟩
    · exact callOk_retry hrenames herase changed conflicts

theorem callOk_advance {call : Call} {trail : Trail} {state : State} (h : CallOk call state) :
    CallOk call (advance lib truncateIp policy trail state).2 := by
  cases state with
  | sealing now head start sealed =>
    simp only [advance]
    split
    · exact h
    · exact fun userId hcall => absurd hcall (h userId)
  | sealBuilt now head record sealed =>
    simp only [advance]
    split
    · exact h
    · exact fun userId hcall => absurd hcall (h userId)
  | finished done => exact h
  | rewriting current rest changed conflicts phase => exact callOk_rewriteStep h

/-- An erasure ends well on a read that found no row naming its subject. -/
theorem erased_of_finished {userId : String} {trail : Trail} {state : State}
    (h : CallOk (.erase userId) state)
    (hdone : (advance lib truncateIp policy trail state).2 = .finished true) :
    state = .finished true ∨ ((advance lib truncateIp policy trail state).1 = trail ∧
      ∀ e ∈ trail.events, namesUser userId e = false) := by
  cases state with
  | sealing now head start sealed => exact absurd rfl (h userId)
  | sealBuilt now head record sealed => exact absurd rfl (h userId)
  | finished done => exact .inl hdone
  | rewriting current rest changed conflicts phase =>
    right
    obtain ⟨herases, hbusy⟩ := h.2 userId rfl
    cases phase with
    | ready => simp [advance, rewriteStep, herases.budget] at hdone
    | windowsRead x =>
      simp only [advance, rewriteStep] at hdone ⊢
      split at hdone
      · rename_i hrows
        rw [if_pos hrows]
        have hlimit : 0 < batchSize := by decide
        rw [herases.query, herases.createdBefore] at hrows
        have hnone := not_matches_of_candidates_nil hlimit (List.isEmpty_iff.mp hrows)
        exact ⟨rfl, fun e he => hnone e he fun _ h => by cases h⟩
      · split at hdone
        · cases hdone
        · cases hdone
    | loose head ops groups =>
      simp only [advance, rewriteStep, retry] at hdone
      split at hdone
      · cases hdone
      · split at hdone
        · cases hdone
        · cases hdone
    | grouped head done groups =>
      cases groups with
      | nil =>
        have hpos : done ≠ 0 := by
          rcases hbusy.1 with hpos | hne
          · omega
          · exact absurd rfl hne
        simp only [advance, rewriteStep, if_neg hpos] at hdone
        cases hdone
      | cons g groups =>
        simp only [advance, rewriteStep] at hdone
        cases hdone
    | built head done record ops groups =>
      simp only [advance, rewriteStep, retry] at hdone
      split at hdone
      · cases hdone
      · split at hdone
        · cases hdone
        · cases hdone

theorem callOk_rewrites {call : Call} (hcall : ∀ userId, call ≠ .erase userId)
    {rewrites : List Rewrite} (h : ∀ r ∈ rewrites, Renames r.change) :
    CallOk call (nextRewrite rewrites) := by
  cases rewrites with
  | nil => exact fun userId heq => absurd heq (hcall userId)
  | cons r rest => exact ⟨h, fun userId heq => absurd heq (hcall userId)⟩

theorem renames_lifecycle (now : DateTime) (bound : Option DateTime) :
    ∀ r ∈ lifecycleRewrites policy now bound, Renames r.change := by
  intro r hr
  unfold lifecycleRewrites at hr
  rcases List.mem_append.mp hr with hexpire | hpseudonymise
  · split at hexpire
    · rw [List.mem_singleton.mp hexpire]
      intro userId name heq
      cases heq
    · exact absurd hexpire List.not_mem_nil
  · split at hpseudonymise
    · rw [List.mem_singleton.mp hpseudonymise]
      intro userId name heq
      cases heq
    · exact absurd hpseudonymise List.not_mem_nil

theorem callOk_begin (trail : Trail) (call : Call) : CallOk call (begin hmacHex policy trail call) := by
  cases call with
  | sealTick now =>
    have hcall : ∀ userId, Call.sealTick now ≠ .erase userId := fun userId heq => by cases heq
    simp only [begin]
    split
    · exact fun userId heq => absurd heq (hcall userId)
    · exact hcall
  | lifecycleTick now =>
    have hcall : ∀ userId, Call.lifecycleTick now ≠ .erase userId := fun userId heq => by cases heq
    simp only [begin]
    split
    · exact callOk_rewrites hcall (renames_lifecycle now none)
    · split
      · exact callOk_rewrites hcall (renames_lifecycle now _)
      · exact fun userId heq => absurd heq (hcall userId)
  | purge before =>
    have hcall : ∀ userId, Call.purge before ≠ .erase userId := fun userId heq => by cases heq
    simp only [begin]
    refine callOk_rewrites hcall ?_
    intro r hr
    rw [List.mem_singleton.mp hr]
    intro userId name heq
    cases heq
  | erase userId =>
    simp only [begin]
    split
    · exact callOk_failed _
    · rename_i name hname
      split
      · exact callOk_failed _
      · rename_i huser
        constructor
        · intro r hr
          rw [List.mem_singleton.mp hr]
          intro other given heq
          obtain ⟨-, rfl⟩ := Change.erase.inj heq
          exact isPseudonym_of_pseudonym hname
        · intro other heq
          obtain rfl := Call.erase.inj heq
          exact ⟨⟨rfl, rfl, rfl, ⟨name, rfl⟩, rfl, huser⟩, trivial⟩

theorem begin_erase_ne (trail : Trail) (userId : String) :
    begin hmacHex policy trail (.erase userId) ≠ .finished true := by
  simp only [begin]
  split
  · simp
  · split
    · simp
    · simp [nextRewrite]

end Calls

section Run
variable (lib : Libraries) (hmacHex : String → String → String) (truncateIp : String → String)
  (policy : AuditPolicy)

def Began (userId : String) (w : World) : Prop :=
  ∃ id task, w.tasks id = some task ∧ task.call = .erase userId

/-- An `erase(userId)` has returned `Ok`. -/
def Returned (userId : String) (w : World) : Prop :=
  ∃ id, w.tasks id = some ⟨.erase userId, .finished true⟩

/-- The batch without a record that `id` is about to have taken: where it would write a row
that names the user, the user and the detail are still those it read. -/
def NotStale (userId : String) (w : World) (id : ℕ) : Prop :=
  ∀ call current rest changed conflicts head ops groups trail',
    w.tasks id = some ⟨call, .rewriting current rest changed conflicts (.loose head ops groups)⟩ →
    apply lib ⟨ops, none, if policy.sealing.isSome then some (headSeq head) else none⟩ w.trail =
      .ok trail' →
    ∀ new, .replace new ∈ ops → ∀ e ∈ w.trail.events, e.id = new.id →
      namesUser userId (copyMutable new e) = true →
      new.userId = (rewritten truncateIp current.change e).userId ∧
        new.detail = (rewritten truncateIp current.change e).detail

/-- An insert has an id of its own and, once the erasure has begun, does not name the user;
once the erasure has returned, no stale batch writes the user back. -/
def Undisturbed (userId : String) (w : World) : Event → Prop
  | .insert e => e.id ∉ w.used ∧ (Began userId w → namesUser userId e = false)
  | .advance id true => Returned userId w → NotStale lib truncateIp policy userId w id
  | _ => True

/-- No stored row names the user. -/
def Erased (userId : String) (w : World) : Prop :=
  ∀ e ∈ w.trail.events, namesUser userId e = false

structure Inv (userId : String) (w : World) : Prop where
  placed : Placed lib policy w
  fresh : ∀ id task, w.tasks id = some task → StateFresh truncateIp w task.state
  calls : ∀ id task, w.tasks id = some task → CallOk task.call task.state
  erased : Returned userId w → Erased userId w

variable {lib hmacHex truncateIp policy} {userId : String} {w : World}

theorem Inv.notPseudonym (h : Inv lib truncateIp policy userId w) (hret : Returned userId w) :
    ¬ IsPseudonym userId := by
  obtain ⟨id, hid⟩ := hret
  exact h.calls id _ hid userId rfl rfl

/-- A row a fresh operation writes names the user only if the row did before. -/
theorem names_of_fresh {change : Change} (hrenames : Renames change) (huser : ¬ IsPseudonym userId)
    {new old : AccessEvent} (hid : new.userId = (rewritten truncateIp change old).userId)
    (hdetail : new.detail = (rewritten truncateIp change old).detail)
    (h : namesUser userId (copyMutable new old) = true) : namesUser userId old = true := by
  refine namesUser_of_rewritten truncateIp hrenames huser ?_
  have haction : (rewritten truncateIp change old).action = old.action := by
    cases change with
    | delete => rfl
    | pseudonymise => rfl
    | erase other name => rfl
  rw [namesUser_iff] at h ⊢
  rw [haction, ← hid, ← hdetail]
  exact h

theorem erased_stageAll (truncateIp : String → String) {change : Change} (hrenames : Renames change)
    (huser : ¬ IsPseudonym userId) {ops : List RowOp} (h : Erased userId w)
    (hops : ∀ new, .replace new ∈ ops → ∀ e ∈ w.trail.events, e.id = new.id →
      namesUser userId (copyMutable new e) = true →
      new.userId = (rewritten truncateIp change e).userId ∧
        new.detail = (rewritten truncateIp change e).detail) :
    ∀ e ∈ stageAll ops w.trail.events, namesUser userId e = false := by
  intro e he
  rcases mem_stageAll he with hsame | ⟨new, hnew, old, hold, hid, rfl⟩
  · exact h e hsame
  · by_contra hnames
    rw [Bool.not_eq_false] at hnames
    obtain ⟨huserId, hdetail⟩ := hops new hnew old hold hid hnames
    have hbefore := names_of_fresh hrenames huser huserId hdetail hnames
    rw [h old hold] at hbefore
    cases hbefore

/-- An access of a call writes the user back into no row. -/
theorem Inv.erased_advance (h : Inv lib truncateIp policy userId w) (hret : Returned userId w)
    {id : ℕ} {task : Task} (htask : w.tasks id = some task)
    (hstale : NotStale lib truncateIp policy userId w id) :
    ∀ e ∈ (advance lib truncateIp policy w.trail task.state).1.events,
      namesUser userId e = false := by
  have herased := h.erased hret
  have huser := h.notPseudonym hret
  have hcall := h.calls id task htask
  have hfresh := h.fresh id task htask
  obtain ⟨call, state⟩ := task
  cases state with
  | sealing now head start sealed =>
    simp only [advance]
    split
    · exact herased
    · exact herased
  | sealBuilt now head record sealed =>
    simp only [advance]
    split
    · rename_i trail' happly
      obtain ⟨-, hevents, -, -⟩ := apply_eq_ok happly
      rw [hevents]
      exact herased
    · exact herased
  | finished done => exact herased
  | rewriting current rest changed conflicts phase =>
    have hrenames := hcall.1 current List.mem_cons_self
    cases phase with
    | ready =>
      simp only [advance, rewriteStep]
      split
      · exact herased
      · exact herased
    | windowsRead x =>
      simp only [advance, rewriteStep]
      split
      · exact herased
      · split
        · exact herased
        · exact herased
    | loose head ops groups =>
      simp only [advance, rewriteStep]
      split
      · rename_i trail' happly
        obtain ⟨-, hevents, -, -⟩ := apply_eq_ok happly
        rw [hevents]
        exact erased_stageAll truncateIp hrenames huser herased
          (hstale _ _ _ _ _ _ _ _ trail' htask happly)
      · exact herased
    | grouped head done groups =>
      cases groups with
      | nil =>
        simp only [advance, rewriteStep]
        split
        · exact herased
        · exact herased
      | cons g groups => exact herased
    | built head done record ops groups =>
      simp only [advance, rewriteStep]
      split
      · rename_i trail' happly
        obtain ⟨hhead, hevents, -, -⟩ := apply_eq_ok happly
        rw [hevents]
        refine erased_stageAll truncateIp hrenames huser herased ?_
        intro new hnew e he hid _
        exact hfresh.2 (hhead _ rfl) _ List.mem_cons_self _ hnew new rfl e he hid
      · exact herased

/-- A call takes an access or begins: the invariant holds with its new state. -/
theorem Inv.setTask (h : Inv lib truncateIp policy userId w) {id : ℕ} {call : Call}
    {trail' : Trail} {state : State}
    (hplaced : Placed lib policy (w.setTask id trail' ⟨call, state⟩))
    (heffect : Effect lib policy w trail')
    (hfresh : StateFresh truncateIp (w.setTask id trail' ⟨call, state⟩) state)
    (hcall : CallOk call state)
    (herased : Returned userId (w.setTask id trail' ⟨call, state⟩) →
      ∀ e ∈ trail'.events, namesUser userId e = false) :
    Inv lib truncateIp policy userId (w.setTask id trail' ⟨call, state⟩) := by
  refine ⟨hplaced, ?_, ?_, herased⟩
  · intro id' task htask
    rcases update_eq_some htask with hnew | hold
    · obtain rfl := Option.some.inj hnew
      exact hfresh
    · exact (h.fresh id' task hold).mono (h.placed.tasks id' task hold) h.placed.shape hplaced.shape
        (heffect.grows rfl rfl) (keeps_of_effect heffect rfl)
  · intro id' task htask
    rcases update_eq_some htask with hnew | hold
    · obtain rfl := Option.some.inj hnew
      exact hcall
    · exact h.calls id' task hold

/-- An erasure has returned: it had before, or this call is it and has just ended. -/
theorem returned_setTask {id : ℕ} {trail : Trail} {call : Call} {state : State}
    (h : Returned userId (w.setTask id trail ⟨call, state⟩)) :
    Returned userId w ∨ (call = .erase userId ∧ state = .finished true) := by
  obtain ⟨id', hid'⟩ := h
  rcases update_eq_some hid' with hnew | hold
  · right
    obtain ⟨rfl, rfl⟩ := Task.mk.inj (Option.some.inj hnew)
    exact ⟨rfl, rfl⟩
  · exact .inl ⟨id', hold⟩

theorem Inv.insert (h : Inv lib truncateIp policy userId w) {e : AccessEvent}
    (hinsert : Undisturbed lib truncateIp policy userId w (.insert e)) :
    Inv lib truncateIp policy userId (step lib hmacHex truncateIp policy w (.insert e)) := by
  have hplaced : Placed lib policy (step lib hmacHex truncateIp policy w (.insert e)) :=
    h.placed.step hinsert.1
  have hold : ∀ x ∈ w.trail.events ++ [e], x.id ∈ w.used → x ∈ w.trail.events := by
    intro x hx hid
    rcases List.mem_append.mp hx with hbefore | hnew
    · exact hbefore
    · rw [List.mem_singleton.mp hnew] at hid
      exact absurd hid hinsert.1
  have hgrows : Grows w (step lib hmacHex truncateIp policy w (.insert e)) := by
    refine ⟨List.prefix_rfl, fun id hid => List.mem_cons_of_mem e.id hid, ?_⟩
    intro x hx hid
    exact ⟨x, hold x hx hid, rfl, rfl⟩
  have hkeeps : Keeps w (step lib hmacHex truncateIp policy w (.insert e)) :=
    .inr ⟨rfl, fun x hx hid _ => hold x hx hid⟩
  refine ⟨hplaced, ?_, h.calls, ?_⟩
  · intro id task htask
    exact (h.fresh id task htask).mono (h.placed.tasks id task htask) h.placed.shape hplaced.shape
      hgrows hkeeps
  · intro hret x hx
    have hbegan : Began userId w := by
      obtain ⟨id, hid⟩ := hret
      exact ⟨id, _, hid, rfl⟩
    rcases List.mem_append.mp hx with hbefore | hnew
    · exact h.erased hret x hbefore
    · rw [List.mem_singleton.mp hnew]
      exact hinsert.2 hbegan

theorem Inv.step (h : Inv lib truncateIp policy userId w) {event : Event}
    (hevent : Undisturbed lib truncateIp policy userId w event) :
    Inv lib truncateIp policy userId (step lib hmacHex truncateIp policy w event) := by
  rcases step_cases lib hmacHex truncateIp policy w event with
    ⟨e, rfl⟩ | hsame | ⟨id, call, ok, state, rfl, htask, hstate, hstep⟩ |
    ⟨id, ok, task, next, rfl, htask, hnext, hstep⟩
  · exact h.insert hevent
  · rw [hsame]
    exact h
  · have hplaced : Placed lib policy (AuditTrail.step lib hmacHex truncateIp policy w
        (.start id call ok)) := h.placed.step trivial
    rw [hstep] at hplaced ⊢
    have hok : StateFresh truncateIp (w.setTask id w.trail ⟨call, state⟩) state ∧
        CallOk call state ∧ ¬ (call = .erase userId ∧ state = .finished true) := by
      rcases hstate with rfl | rfl
      · refine ⟨stateFresh_begin hmacHex call, callOk_begin w.trail call, ?_⟩
        intro hends
        obtain ⟨rfl, hfinished⟩ := hends
        exact begin_erase_ne w.trail userId hfinished
      · exact ⟨trivial, callOk_failed call, by simp⟩
    refine h.setTask hplaced .same hok.1 hok.2.1 ?_
    intro hret
    rcases returned_setTask hret with hbefore | hends
    · exact h.erased hbefore
    · exact absurd hends hok.2.2
  · have hplaced : Placed lib policy (AuditTrail.step lib hmacHex truncateIp policy w
        (.advance id ok)) := h.placed.step trivial
    rw [hstep] at hplaced ⊢
    rcases hnext with ⟨rfl, rfl⟩ | ⟨rfl, -⟩
    · have haccess : Access lib policy w (advance lib truncateIp policy w.trail task.state) :=
        h.placed.access (h.placed.tasks id task htask)
      refine h.setTask hplaced haccess.effect ?_ (callOk_advance (h.calls id task htask)) ?_
      · exact stateFresh_advance h.placed (h.placed.tasks id task htask) (h.fresh id task htask) rfl
          rfl hplaced.shape
      · intro hret
        rcases returned_setTask hret with hbefore | ⟨hcall, hfinished⟩
        · exact h.erased_advance hbefore htask (hevent hbefore)
        · have hok := h.calls id task htask
          rw [hcall] at hok
          rcases erased_of_finished hok hfinished with hdone | ⟨htrail, hnone⟩
          · have hbefore : Returned userId w := by
              refine ⟨id, ?_⟩
              rw [htask, ← hcall, ← hdone]
            exact h.erased_advance hbefore htask (hevent hbefore)
          · rw [htrail]
            exact hnone
    · refine h.setTask hplaced .same trivial (callOk_failed _) ?_
      intro hret
      rcases returned_setTask hret with hbefore | ⟨-, hfinished⟩
      · exact h.erased hbefore
      · cases hfinished

theorem inv_initial (userId : String) : Inv lib truncateIp policy userId World.initial where
  placed := placed_initial
  fresh := by simp [World.initial]
  calls := by simp [World.initial]
  erased := fun _ e he => absurd he List.not_mem_nil

/-- In every run without a stale batch, once `erase(userId)` has returned no row names the user
again. -/
theorem erased_for_good (userId : String) (events : List Event)
    (h : Guarded (AuditTrail.step lib hmacHex truncateIp policy)
      (Undisturbed lib truncateIp policy userId) World.initial events)
    (hret : Returned userId
      (run (AuditTrail.step lib hmacHex truncateIp policy) World.initial events)) :
    Erased userId (run (AuditTrail.step lib hmacHex truncateIp policy) World.initial events) := by
  have hinv : Inv lib truncateIp policy userId
      (run (AuditTrail.step lib hmacHex truncateIp policy) World.initial events) := by
    refine run_keeps (Undisturbed lib truncateIp policy userId)
      (Inv lib truncateIp policy userId) ?_ _ _ (inv_initial userId) h
    intro w event hw hevent
    exact hw.step hevent
  exact hinv.erased hret

end Run

section Sample

def readRow : AccessEvent where
  id := "0b7c9d1e-2f3a-4b5c-8d6e-7f8091a2b3c4"
  userId := some "alice"
  userRole := .user
  packageId := some ⟨"npm", "left-pad", "1.3.0", none⟩
  action := .download
  result := .allowed
  timestamp := sampleStart
  ipAddress := some "10.0.0.1"
  userAgent := none
  throttledCount := none
  detail := none
  reasonCode := none

/-- HMAC-SHA256 in hex on the one key and user of the sample. -/
def sampleHmac (key userId : String) : String :=
  if key = "erasure-key-2026" ∧ userId = "alice" then
    "cd5c24c1b74e549bad501126df1575e4a271d13dfc28f9893d2e7f2872b38913"
  else key ++ userId

def sampleTruncate (ip : String) : String := if ip = "10.0.0.1" then "10.0.0.0/24" else ip

/-- No sealing, and rows pseudonymised after thirty days. -/
def openPolicy : AuditPolicy where
  accessRetention := none
  securityRetention := none
  pseudonymiseAfter := some 2592000000000000
  sealing := none
  erasureKey := some "erasure-key-2026"
  interval_pos := by simp

abbrev openStep : World → Event → World := step sampleLib sampleHmac sampleTruncate openPolicy

/-- The erasure of `alice`, start to end, with one batch. -/
def eraseEvents : List Event :=
  [.start 1 (.erase "alice") true, .advance 1 true, .advance 1 true, .advance 1 true,
    .advance 1 true, .advance 1 true, .advance 1 true]

/-- The erasure runs between the lifecycle's read of the row and its batch. -/
def staleEvents : List Event :=
  [.insert readRow, .start 0 (.lifecycleTick (sampleStart + 5184000000000000)) true,
    .advance 0 true, .advance 0 true] ++ eraseEvents ++ [.advance 0 true]

/-- The inserts of a run in which no row naming the user comes after their erasure began. -/
def Unnamed (userId : String) (w : World) : Event → Prop
  | .insert e => e.id ∉ w.used ∧ (Began userId w → namesUser userId e = false)
  | _ => True

/-- The operations of the batch without a record that a call is about to have taken. -/
def looseOps : State → List RowOp
  | .rewriting _ _ _ _ (.loose _ ops _) => ops
  | _ => []

/-- The operation would leave a stored row naming the user. -/
def writesName (userId : String) (events : List AccessEvent) : RowOp → Bool
  | .delete _ => false
  | .replace new => events.any fun e =>
    decide (e.id = new.id) && namesUser userId (copyMutable new e)

theorem notStale_of_unnamed {userId : String} {w : World} {id : ℕ}
    (h : ((w.tasks id).any fun task =>
      (looseOps task.state).any (writesName userId w.trail.events)) = false) :
    NotStale sampleLib sampleTruncate openPolicy userId w id := by
  intro call current rest changed conflicts head ops groups trail' htask _ new hnew e he hid hnames
  exfalso
  simp only [htask, Option.any_some, looseOps, List.any_eq_false] at h
  refine h _ hnew ?_
  simp only [writesName, List.any_eq_true, Bool.and_eq_true, decide_eq_true_eq]
  exact ⟨e, he, hid, hnames⟩

theorem not_began_initial (userId : String) : ¬ Began userId World.initial := by
  intro h
  obtain ⟨id, task, htask, -⟩ := h
  cases htask

end Sample

theorem erased_sample_stays_erased :
    Guarded openStep (Undisturbed sampleLib sampleTruncate openPolicy "alice") World.initial
        (.insert readRow :: eraseEvents) ∧
      Returned "alice" (run openStep World.initial (.insert readRow :: eraseEvents)) ∧
      Erased "alice" (run openStep World.initial (.insert readRow :: eraseEvents)) := by
  have hguard : Guarded openStep (Undisturbed sampleLib sampleTruncate openPolicy "alice")
      World.initial (.insert readRow :: eraseEvents) := by
    refine ⟨⟨List.not_mem_nil, fun hbegan => absurd hbegan (not_began_initial _)⟩, trivial, ?_⟩
    exact ⟨fun _ => notStale_of_unnamed rfl, fun _ => notStale_of_unnamed rfl,
      fun _ => notStale_of_unnamed rfl, fun _ => notStale_of_unnamed rfl,
      fun _ => notStale_of_unnamed rfl, fun _ => notStale_of_unnamed rfl, trivial⟩
  have hret : Returned "alice" (run openStep World.initial (.insert readRow :: eraseEvents)) :=
    ⟨1, rfl⟩
  exact ⟨hguard, hret, erased_for_good "alice" _ hguard hret⟩

/-- The lifecycle read the row before the erasure and writes it after: it names `alice` again. -/
theorem stale_batch_names_again :
    Guarded openStep (Unnamed "alice") World.initial staleEvents ∧
      Returned "alice" (run openStep World.initial staleEvents) ∧
      ¬ Erased "alice" (run openStep World.initial staleEvents) := by
  refine ⟨?_, ⟨1, rfl⟩, ?_⟩
  · refine ⟨⟨List.not_mem_nil, fun hbegan => absurd hbegan (not_began_initial _)⟩, ?_⟩
    exact ⟨trivial, trivial, trivial, trivial, trivial, trivial, trivial, trivial, trivial, trivial,
      trivial, trivial⟩
  · intro herased
    have hevents : (run openStep World.initial staleEvents).trail.events =
        [{ readRow with ipAddress := some "10.0.0.0/24" }] := rfl
    have hrow := herased { readRow with ipAddress := some "10.0.0.0/24" } (by rw [hevents]; simp)
    revert hrow
    decide

end BatleHub.ErasureRuns
