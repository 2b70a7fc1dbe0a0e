import BatleHub.AuditStore
import BatleHub.Lib.Slots

/-!
The calls of `services/audit_trail.rs` over one store, one store access at a time: the
sealer, the lifecycle, the purge and the erasure, on any number of processes. Each builds
its batches from what it read before and starts again when the chain has moved.
-/
namespace BatleHub.AuditTrail

open LocalPackages AuditEvents SealChain AuditStore Lib.Texts

def batchSize : ℕ := 5000

def tickBudget : ℕ := 50000

def sealsPerTick : ℕ := 100

def conflictRetries : ℕ := 5

/-- `[audit]`, resolved. Durations are in nanoseconds and the seal interval, where sealing
is on, in seconds; `[audit] seal_interval_secs = 0` turns it off. -/
structure AuditPolicy where
  accessRetention : Option ℤ
  securityRetention : Option ℤ
  pseudonymiseAfter : Option ℤ
  sealing : Option ℕ
  erasureKey : Option String
  interval_pos : ∀ secs, sealing = some secs → 0 < secs

/-- What a rewrite does to the rows it finds. -/
inductive Change where
  | delete
  | pseudonymise
  | erase (userId pseudonym : String)
  deriving DecidableEq, Repr

structure Rewrite where
  query : CandidateQuery
  createdBefore : Option DateTime
  change : Change
  /-- `none` is `u64::MAX`, no bound. -/
  budget : Option ℕ
  deriving DecidableEq, Repr

def Change.kind : Change → SealKind
  | .delete => .expire
  | .pseudonymise => .amend
  | .erase _ _ => .amend

section Changes
variable (truncateIp : String → String)

def renameSubject (action : AccessAction) (detail userId pseudonym : String) : Option String :=
  if detailNamesSubject action detail userId then
    (subjectPrefix action userId).bind fun lead =>
      (subjectPrefix action pseudonym).map fun renamed =>
        renamed ++ String.ofList (detail.toList.drop lead.toList.length)
  else none

/-- The row with its IP cut to a network and its user agent dropped. -/
def pseudonymisedRow (r : AccessEvent) : AccessEvent :=
  { r with
    userAgent := none
    ipAddress := r.ipAddress.bind fun ip =>
      let cut := truncateIp ip
      if cut ≠ ip ∨ ip.toList.contains '/' then some cut else none }

/-- The row with the subject renamed, as its actor and in its detail. -/
def erasedRow (userId pseudonym : String) (r : AccessEvent) : AccessEvent :=
  { r with
    userId := if r.userId = some userId then some pseudonym else r.userId
    detail := r.detail.map fun detail =>
      (renameSubject r.action detail userId pseudonym).getD detail }

/-- The row operation of a change, where it changes the row. -/
def Change.op (change : Change) (r : AccessEvent) : Option RowOp :=
  match change with
  | .delete => some (.delete r.id)
  | .pseudonymise =>
    if pseudonymisedRow truncateIp r = r then none
    else some (.replace (pseudonymisedRow truncateIp r))
  | .erase userId pseudonym =>
    if erasedRow userId pseudonym r = r then none
    else some (.replace (erasedRow userId pseudonym r))

/-- A window's rows with the operations applied. -/
def applyOps (rows : List AccessEvent) (ops : List RowOp) : List AccessEvent :=
  let deleted := fun (r : AccessEvent) => ops.any fun op => decide (op = .delete r.id)
  let replacement := fun (r : AccessEvent) => ops.foldl (fun found op =>
    match op with
    | .replace new => if new.id = r.id then some new else found
    | .delete _ => found) none
  (rows.filter fun r => !deleted r).map fun r =>
    match replacement r with
    | some new => copyMutable new r
    | none => r

/-- The operations on the rows of one sealed window. -/
structure Group where
  window : Window
  ops : List RowOp

/-- Entry by start in a `BTreeMap`, and push. -/
def pushGroup (window : Window) (op : RowOp) : List Group → List Group
  | [] => [⟨window, [op]⟩]
  | g :: rest =>
    if window.1 < g.window.1 then ⟨window, [op]⟩ :: g :: rest
    else if window.1 = g.window.1 then ⟨g.window, g.ops ++ [op]⟩ :: rest
    else g :: pushGroup window op rest

/-- The operations of a batch: those on rows outside every sealed window, and the rest by
window. -/
structure Plan where
  loose : List RowOp
  groups : List Group

def planRow (sealing : Bool) (w : Windows) (change : Change) (plan : Plan) (row : AccessEvent) :
    Plan :=
  match change.op truncateIp row with
  | none => plan
  | some op =>
    match if sealing then w.holding row.timestamp else none with
    | some window => { plan with groups := pushGroup window op plan.groups }
    | none => { plan with loose := plan.loose ++ [op] }

def planRows (sealing : Bool) (w : Windows) (change : Change) (rows : List AccessEvent) : Plan :=
  rows.foldl (planRow truncateIp sealing w change) ⟨[], []⟩

/-- The sealed window a row is planned under. -/
def place (sealing : Bool) (w : Windows) (row : AccessEvent) : Option Window :=
  if sealing then w.holding row.timestamp else none

theorem op_id {change : Change} {r : AccessEvent} {op : RowOp}
    (h : change.op truncateIp r = some op) : op.id = r.id := by
  cases change with
  | delete =>
    obtain rfl := Option.some.inj h
    rfl
  | pseudonymise =>
    simp only [Change.op] at h
    split at h
    · cases h
    · obtain rfl := Option.some.inj h
      rfl
  | erase userId name =>
    simp only [Change.op] at h
    split at h
    · cases h
    · obtain rfl := Option.some.inj h
      rfl

theorem mem_pushGroup {window : Window} {op : RowOp} {groups : List Group} {g : Group}
    (h : g ∈ pushGroup window op groups) :
    g ∈ groups ∨ g = ⟨window, [op]⟩ ∨
      ∃ old ∈ groups, window.1 = old.window.1 ∧ g = ⟨old.window, old.ops ++ [op]⟩ := by
  induction groups with
  | nil => exact .inr (.inl (List.mem_singleton.mp h))
  | cons x rest ih =>
    rw [pushGroup] at h
    split at h
    · rcases List.mem_cons.mp h with hnew | hold
      · exact .inr (.inl hnew)
      · exact .inl hold
    · split at h
      · rename_i heq
        rcases List.mem_cons.mp h with hnew | hold
        · exact .inr (.inr ⟨x, List.mem_cons_self, heq, hnew⟩)
        · exact .inl (List.mem_cons_of_mem x hold)
      · rcases List.mem_cons.mp h with hx | hrest
        · exact .inl (hx ▸ List.mem_cons_self)
        · rcases ih hrest with hold | hnew | ⟨old, hold, heq, hg⟩
          · exact .inl (List.mem_cons_of_mem x hold)
          · exact .inr (.inl hnew)
          · exact .inr (.inr ⟨old, List.mem_cons_of_mem x hold, heq, hg⟩)

theorem pushGroup_ne_nil (window : Window) (op : RowOp) (groups : List Group) :
    pushGroup window op groups ≠ [] := by
  cases groups with
  | nil => simp [pushGroup]
  | cons x rest =>
    rw [pushGroup]
    split
    · simp
    · split
      · simp
      · simp

/-- The groups are in the order of their windows' starts. -/
def Sorted (groups : List Group) : Prop := groups.Pairwise fun a b => a.window.1 < b.window.1

theorem sorted_pushGroup {window : Window} {op : RowOp} {groups : List Group}
    (h : Sorted groups) : Sorted (pushGroup window op groups) := by
  induction groups with
  | nil => exact List.pairwise_singleton _ _
  | cons g rest ih =>
    obtain ⟨hg, hrest⟩ := List.pairwise_cons.mp h
    rw [pushGroup]
    split
    · rename_i hlt
      refine List.pairwise_cons.mpr ⟨?_, h⟩
      intro x hx
      rcases List.mem_cons.mp hx with rfl | hx
      · exact hlt
      · exact lt_trans hlt (hg x hx)
    · rename_i hnlt
      split
      · exact List.pairwise_cons.mpr ⟨hg, hrest⟩
      · rename_i hne
        refine List.pairwise_cons.mpr ⟨?_, ih hrest⟩
        intro x hx
        rcases mem_pushGroup hx with hold | rfl | ⟨old, hold, -, rfl⟩
        · exact hg x hold
        · exact lt_of_le_of_ne (not_lt.mp hnlt) (Ne.symm hne)
        · exact hg old hold

/-- What a plan holds: each operation is a row's, under the window the row is placed in. -/
structure Planned (sealing : Bool) (w : Windows) (change : Change) (rows : List AccessEvent)
    (plan : Plan) : Prop where
  loose : ∀ op ∈ plan.loose, ∃ row ∈ rows,
    change.op truncateIp row = some op ∧ place sealing w row = none
  window : ∀ g ∈ plan.groups, ∃ row ∈ rows, place sealing w row = some g.window
  ops : ∀ g ∈ plan.groups, ∀ op ∈ g.ops, ∃ row ∈ rows, change.op truncateIp row = some op ∧
    ∃ v, place sealing w row = some v ∧ v.1 = g.window.1
  nonempty : ∀ g ∈ plan.groups, g.ops ≠ []
  sorted : Sorted plan.groups
  complete : plan.loose = [] → plan.groups = [] → ∀ row ∈ rows, change.op truncateIp row = none

variable {truncateIp}

/-- Rows that all have an operation are not planned away. -/
theorem Planned.groups_ne_nil {sealing : Bool} {w : Windows} {change : Change}
    {rows : List AccessEvent} {plan : Plan} (h : Planned truncateIp sealing w change rows plan)
    (hrows : rows ≠ []) (hop : ∀ row ∈ rows, change.op truncateIp row ≠ none)
    (hloose : plan.loose = []) : plan.groups ≠ [] := by
  intro hgroups
  obtain ⟨row, hrow⟩ := List.exists_mem_of_ne_nil rows hrows
  exact hop row hrow (h.complete hloose hgroups row hrow)

theorem Planned.planRow {sealing : Bool} {w : Windows} {change : Change} {rows : List AccessEvent}
    {plan : Plan} (h : Planned truncateIp sealing w change rows plan) (row : AccessEvent) :
    Planned truncateIp sealing w change (rows ++ [row])
      (planRow truncateIp sealing w change plan row) := by
  have hold : ∀ {p : AccessEvent → Prop}, (∃ r ∈ rows, p r) → ∃ r ∈ rows ++ [row], p r :=
    fun ⟨r, hr, hp⟩ => ⟨r, List.mem_append_left _ hr, hp⟩
  have hlast : row ∈ rows ++ [row] := by simp
  unfold AuditTrail.planRow
  cases hop : change.op truncateIp row with
  | none =>
    refine ⟨fun op hmem => hold (h.loose op hmem), fun g hg => hold (h.window g hg),
      fun g hg op hmem => hold (h.ops g hg op hmem), h.nonempty, h.sorted, ?_⟩
    intro hloose hgroups r hr
    rcases List.mem_append.mp hr with hbefore | hrow
    · exact h.complete hloose hgroups r hbefore
    · exact List.mem_singleton.mp hrow ▸ hop
  | some op =>
    change Planned truncateIp sealing w change (rows ++ [row]) (match place sealing w row with
      | some window => { plan with groups := pushGroup window op plan.groups }
      | none => { plan with loose := plan.loose ++ [op] })
    cases hplace : place sealing w row with
    | none =>
      refine ⟨?_, fun g hg => hold (h.window g hg), fun g hg op hmem => hold (h.ops g hg op hmem),
        h.nonempty, h.sorted, by simp⟩
      intro op' hmem
      rcases List.mem_append.mp hmem with hbefore | hnew
      · exact hold (h.loose op' hbefore)
      · obtain rfl := List.mem_singleton.mp hnew
        exact ⟨row, hlast, hop, hplace⟩
    | some window =>
      refine ⟨fun op hmem => hold (h.loose op hmem), ?_, ?_, ?_, sorted_pushGroup h.sorted,
        fun _ hnil => absurd hnil (pushGroup_ne_nil _ _ _)⟩
      · intro g hg
        rcases mem_pushGroup hg with hbefore | rfl | ⟨old, hbefore, -, rfl⟩
        · exact hold (h.window g hbefore)
        · exact ⟨row, hlast, hplace⟩
        · exact hold (h.window old hbefore)
      · intro g hg op' hmem
        rcases mem_pushGroup hg with hbefore | rfl | ⟨old, hbefore, hstart, rfl⟩
        · exact hold (h.ops g hbefore op' hmem)
        · obtain rfl := List.mem_singleton.mp hmem
          exact ⟨row, hlast, hop, window, hplace, rfl⟩
        · rcases List.mem_append.mp hmem with hops | hnew
          · exact hold (h.ops old hbefore op' hops)
          · obtain rfl := List.mem_singleton.mp hnew
            exact ⟨row, hlast, hop, window, hplace, hstart⟩
      · intro g hg
        rcases mem_pushGroup hg with hbefore | rfl | ⟨old, -, -, rfl⟩
        · exact h.nonempty g hbefore
        · simp
        · simp

theorem planned_planRows (truncateIp : String → String) (sealing : Bool) (w : Windows)
    (change : Change) (rows : List AccessEvent) :
    Planned truncateIp sealing w change rows (planRows truncateIp sealing w change rows) := by
  induction rows using List.reverseRecOn with
  | nil =>
    exact ⟨by simp [planRows], by simp [planRows], by simp [planRows], by simp [planRows],
      List.Pairwise.nil, by simp⟩
  | append_singleton rows row ih =>
    unfold planRows
    rw [List.foldl_append]
    exact ih.planRow row

end Changes

inductive Call where
  | sealTick (now : DateTime)
  | lifecycleTick (now : DateTime)
  | purge (before : DateTime)
  | erase (userId : String)
  deriving DecidableEq, Repr

/-- Where one `rewrite_batch` stands. `changed` counts its committed operations. -/
inductive BatchPhase where
  | ready
  | windowsRead (w : Windows)
  | loose (head : Option SealRecord) (ops : List RowOp) (groups : List Group)
  | grouped (head : Option SealRecord) (changed : ℕ) (groups : List Group)
  | built (head : Option SealRecord) (changed : ℕ) (record : SealRecord) (ops : List RowOp)
      (groups : List Group)

/-- Where a call stands. An erasure is `finished true` once its rows are done; its tokens and
blocks follow. -/
inductive State where
  | sealing (now : DateTime) (head : Option SealRecord) (start : DateTime) (sealed : ℕ)
  | sealBuilt (now : DateTime) (head : Option SealRecord) (record : SealRecord) (sealed : ℕ)
  | rewriting (current : Rewrite) (rest : List Rewrite) (changed conflicts : ℕ)
      (phase : BatchPhase)
  | finished (ok : Bool)

structure Task where
  call : Call
  state : State

/-- The store, the ids ever used by a row, and the calls in flight or done. -/
structure World where
  trail : Trail
  used : List String
  tasks : ℕ → Option Task

def World.initial : World := ⟨⟨[], []⟩, [], fun _ => none⟩

/-- `ok` says whether the store access behind the step succeeds; a conflict is no failure of
this kind. The rows that the calls record themselves are among the inserts. -/
inductive Event where
  | insert (e : AccessEvent)
  | start (id : ℕ) (call : Call) (ok : Bool)
  | advance (id : ℕ) (ok : Bool)

section Steps
variable (lib : Libraries) (hmacHex : String → String → String) (truncateIp : String → String)
  (policy : AuditPolicy)

def intervalStep (secs : ℕ) : ℤ := secs * 1000000000

/-- `t` rounded down to a multiple of `secs` since the epoch. -/
def align (t : DateTime) (secs : ℕ) : DateTime :=
  (t / 1000000000 - t / 1000000000 % secs) * 1000000000

def pseudonym (userId : String) : Option String :=
  policy.erasureKey.map fun key =>
    "erased:" ++ String.ofList ((hmacHex key userId).toList.take 32)

def lifecycleRewrites (now : DateTime) (bound : Option DateTime) : List Rewrite :=
  (if policy.accessRetention.isSome || policy.securityRetention.isSome then
    [{ query := .expire (policy.accessRetention.map fun d => now - d)
          (policy.securityRetention.map fun d => now - d)
       createdBefore := bound, change := .delete, budget := some tickBudget }]
  else []) ++
  (match policy.pseudonymiseAfter with
  | some after => [⟨.pseudonymise (now - after), bound, .pseudonymise, some tickBudget⟩]
  | none => [])

/-- The next of a call's rewrites, or its end. -/
def nextRewrite : List Rewrite → State
  | [] => .finished true
  | r :: rest => .rewriting r rest 0 0 .ready

/-- The beginning of a call, up to and with its first read of the chain. -/
def begin (trail : Trail) : Call → State
  | .sealTick now =>
    match policy.sealing with
    | none => .finished true
    | some secs =>
      let w := windows trail.seals
      .sealing now w.head
        (w.sealedUntil.getD (align now (max secs 1) - intervalStep secs - intervalStep secs)) 0
  | .lifecycleTick now =>
    match policy.sealing with
    | none => nextRewrite (lifecycleRewrites policy now none)
    | some _ =>
      match (windows trail.seals).sealedUntil with
      | some stop => nextRewrite (lifecycleRewrites policy now (some stop))
      | none => .finished true
  | .purge before => nextRewrite [⟨.expire (some before) none, none, .delete, none⟩]
  | .erase userId =>
    match pseudonym hmacHex policy userId with
    | none => .finished false
    | some name =>
      if startsWith userId "erased:" then .finished false
      else nextRewrite [⟨.subject userId, none, .erase userId name, none⟩]

/-- The chain moved: from a fresh read, unless it has moved too often. -/
def retry (current : Rewrite) (rest : List Rewrite) (changed conflicts : ℕ) : State :=
  if conflicts + 1 ≥ conflictRetries then .finished false
  else .rewriting current rest changed (conflicts + 1) .ready

/-- One access of a `rewrite`. -/
def rewriteStep (trail : Trail) (current : Rewrite) (rest : List Rewrite)
    (changed conflicts : ℕ) : BatchPhase → Trail × State
  | .ready =>
    if current.budget.any fun b => decide (b ≤ changed) then (trail, nextRewrite rest)
    else (trail, .rewriting current rest changed conflicts (.windowsRead (windows trail.seals)))
  | .windowsRead w =>
    let rows := candidates trail.events current.query current.createdBefore batchSize
    let plan := planRows truncateIp policy.sealing.isSome w current.change rows
    if rows.isEmpty then (trail, nextRewrite rest)
    else if plan.loose.isEmpty then
      (trail, .rewriting current rest changed conflicts (.grouped w.head 0 plan.groups))
    else (trail, .rewriting current rest changed conflicts (.loose w.head plan.loose plan.groups))
  | .loose head ops groups =>
    let expect := if policy.sealing.isSome then some (headSeq head) else none
    match apply lib ⟨ops, none, expect⟩ trail with
    | .ok trail' =>
      (trail', .rewriting current rest changed conflicts (.grouped head ops.length groups))
    | .error _ => (trail, retry current rest changed conflicts)
  | .grouped _ done [] =>
    -- a batch that changed nothing means there is nothing left
    if done = 0 then (trail, nextRewrite rest)
    else (trail, .rewriting current rest (changed + done) 0 .ready)
  | .grouped head done (g :: groups) =>
    let rows := applyOps (rowsIn trail.events g.window.1 g.window.2) g.ops
    let record := nextRecord lib head current.change.kind g.window rows g.ops.length
    (trail, .rewriting current rest changed conflicts (.built head done record g.ops groups))
  | .built head done record ops groups =>
    match apply lib ⟨ops, some record, some (headSeq head)⟩ trail with
    | .ok trail' =>
      (trail', .rewriting current rest changed conflicts
        (.grouped (some record) (done + ops.length) groups))
    | .error _ => (trail, retry current rest changed conflicts)

/-- One access of a call. -/
def advance (trail : Trail) : State → Trail × State
  | .sealing now head start sealed =>
    let length := (policy.sealing.map intervalStep).getD 0
    if sealed < sealsPerTick ∧ start + length + length ≤ now then
      let window := (start, start + length)
      (trail, .sealBuilt now head
        (nextRecord lib head .seal window (rowsIn trail.events window.1 window.2) 0) sealed)
    else (trail, .finished true)
  | .sealBuilt now head record sealed =>
    match apply lib ⟨[], some record, some (headSeq head)⟩ trail with
    | .ok trail' => (trail', .sealing now (some record) record.windowEnd (sealed + 1))
    | .error _ => (trail, .finished true)
  | .rewriting current rest changed conflicts phase =>
    rewriteStep lib truncateIp policy trail current rest changed conflicts phase
  | .finished ok => (trail, .finished ok)

def World.setTask (w : World) (id : ℕ) (trail : Trail) (task : Task) : World :=
  { w with trail := trail, tasks := Function.update w.tasks id (some task) }

def step (w : World) : Event → World
  | .insert e => ⟨⟨w.trail.events ++ [e], w.trail.seals⟩, e.id :: w.used, w.tasks⟩
  | .start id call ok =>
    match w.tasks id with
    | some _ => w
    | none =>
      w.setTask id w.trail ⟨call, if ok then begin hmacHex policy w.trail call else .finished false⟩
  | .advance id ok =>
    match w.tasks id with
    | none => w
    | some task =>
      if ok then
        let next := advance lib truncateIp policy w.trail task.state
        w.setTask id next.1 ⟨task.call, next.2⟩
      else
        match task.state with
        | .finished _ => w
        | _ => w.setTask id w.trail ⟨task.call, .finished false⟩

/-- What a step does: a row is inserted, a call begins, a call takes an access, or nothing
happens. -/
theorem step_cases (w : World) (event : Event) :
    (∃ e, event = .insert e) ∨ step lib hmacHex truncateIp policy w event = w ∨
      (∃ id call ok state, event = .start id call ok ∧ w.tasks id = none ∧
        (state = begin hmacHex policy w.trail call ∨ state = .finished false) ∧
        step lib hmacHex truncateIp policy w event = w.setTask id w.trail ⟨call, state⟩) ∨
      ∃ id ok task next, event = .advance id ok ∧ w.tasks id = some task ∧
        ((ok = true ∧ next = advance lib truncateIp policy w.trail task.state) ∨
          (next = (w.trail, .finished false) ∧ ∀ done, task.state ≠ .finished done)) ∧
        step lib hmacHex truncateIp policy w event = w.setTask id next.1 ⟨task.call, next.2⟩ := by
  cases event with
  | insert e => exact .inl ⟨e, rfl⟩
  | start id call ok =>
    right
    simp only [step]
    cases htask : w.tasks id with
    | some task => exact .inl rfl
    | none =>
      refine .inr (.inl ⟨id, call, ok, _, rfl, htask, ?_, rfl⟩)
      cases ok with
      | true => exact .inl rfl
      | false => exact .inr rfl
  | advance id ok =>
    right
    simp only [step]
    cases htask : w.tasks id with
    | none => exact .inl rfl
    | some task =>
      cases ok with
      | true => exact .inr (.inr ⟨id, true, task, _, rfl, htask, .inl ⟨rfl, rfl⟩, rfl⟩)
      | false =>
        simp only [Bool.false_eq_true, if_false]
        split
        · exact .inl rfl
        · rename_i hrunning
          exact .inr (.inr ⟨id, false, task, _, rfl, htask, .inr ⟨rfl, hrunning⟩, rfl⟩)

end Steps

end BatleHub.AuditTrail
