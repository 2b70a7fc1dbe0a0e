import BatleHub.Containment
import BatleHub.Lib.Runs
import BatleHub.UpstreamSweeps

/-!
The block arm of the upstream audit beside the administrators (`services/upstream_audit`,
`services/admin/packages.rs`). A status row names who blocked the version, and both sides
write it over; the audit lifts what it read as its own.
-/
namespace BatleHub.UpstreamAudit

open Lib AssocMap
open Containment (PackageStatus)
open LocalPackages (DateTime TextEnv)

def SYSTEM_ACTOR : String := "system:upstream-audit"

/-- The identity that the block arm writes with. -/
def systemIdentity : Identity := ⟨some SYSTEM_ACTOR, .admin, none, []⟩

/-- No provider hands out the audit's own name. -/
abbrev Administrator := { identity : Identity // identity.userId ≠ some SYSTEM_ACTOR }

/-- The name under which `block_package` records an identity. -/
def blockedByOf (identity : Identity) : String := identity.userId.getD identity.role.toString

theorem blockedByOf_ne (admin : Administrator) : blockedByOf admin.1 ≠ SYSTEM_ACTOR := by
  obtain ⟨⟨userId, role, provider, groups⟩, hlegal⟩ := admin
  have hrole : ∀ role : Role, role.toString ≠ SYSTEM_ACTOR := by
    intro role
    cases role <;> decide
  unfold blockedByOf
  cases userId with
  | none => exact hrole role
  | some u =>
    intro hsame
    exact hlegal (congrArg some hsame)

/-- The coordinate that a held version is blocked under. -/
def auditCoordinate (kind : RegistryKind) (registry name version : String) : PackageId :=
  if isPathAddressed kind then ⟨registry, name, PATH_KIND_VERSION, some version⟩
  else PackageId.new registry name version

def blockReason (env : TextEnv) (row : UpstreamStatus) : String :=
  "upstream disappearance confirmed " ++ env.formatDay (row.confirmedAt.getD row.lastCheckedAt) ++
    " (" ++ toString row.consecutiveMisses ++ " misses since " ++
    env.formatDay row.firstMissedAt ++ ")"

/-- What is started: the administrators' two calls, and the audit's on a registry whose
policy is to block. -/
inductive Job where
  | block (admin : Administrator) (id : PackageId) (reason : String)
  | unblock (admin : Administrator) (id : PackageId)
  | confirmed (kind : RegistryKind) (row : UpstreamStatus) (versions : List String)
  | reappeared (kind : RegistryKind) (row : UpstreamStatus) (versions : List String)
  | reconcile (kind : RegistryKind) (rows : List UpstreamStatus) (held : Assoc String (List String))

/-- What is left of a job, up to its next access to a status row. -/
inductive Task where
  | block (admin : Administrator) (id : PackageId) (reason : String)
  | unblock (admin : Administrator) (id : PackageId)
  | blockEach (rest : List (PackageId × String))
  | checkEach (rest : List (PackageId × String))
  | blockChecked (id : PackageId) (reason : String) (rest : List (PackageId × String))
  | readEach (rest : List PackageId)
  | lift (id : PackageId) (rest : List PackageId)
  | done

def coordinates (kind : RegistryKind) (row : UpstreamStatus) (versions : List String) :
    List PackageId :=
  versions.map (auditCoordinate kind row.registry row.packageName)

/-- The versions that reconciling one row is about. -/
def reconciledVersions (held : Assoc String (List String)) (row : UpstreamStatus) : List String :=
  match row.version with
  | some v => [v]
  | none => (held.lookup row.packageName).getD []

def taskOf (env : TextEnv) : Job → Task
  | .block admin id reason => .block admin id reason
  | .unblock admin id => .unblock admin id
  | .confirmed kind row versions =>
    .blockEach ((coordinates kind row versions).map fun id => (id, blockReason env row))
  | .reappeared kind row versions =>
    if row.state ≠ .disappeared then .done else .readEach (coordinates kind row versions)
  | .reconcile kind rows held =>
    .checkEach (rows.flatMap fun row =>
      (coordinates kind row (reconciledVersions held row)).map fun id => (id, blockReason env row))

/-- A write to a status row, and whether an administrator made it. -/
structure Write where
  byAdmin : Bool
  id : PackageId
  status : PackageStatus

/-- The status rows, the jobs under way and the writes so far. -/
structure Desk where
  statuses : Assoc PackageId PackageStatus
  tasks : Assoc ℕ Task
  log : List Write

/-- No job is under way. -/
def Desk.opened (statuses : Assoc PackageId PackageStatus) : Desk := ⟨statuses, ∅, []⟩

/-- `get_status`. -/
def Desk.statusOf (d : Desk) (id : PackageId) : PackageStatus :=
  (d.statuses.lookup id).getD .available

/-- `set_status`. A write that failed may have taken effect or not. -/
def Desk.setStatus (d : Desk) (w : Write) (took : Bool) : Desk :=
  if took then { d with statuses := d.statuses.insert w.id w.status, log := d.log ++ [w] } else d

def Desk.goOn (d : Desk) (task : ℕ) (t : Task) : Desk := { d with tasks := d.tasks.insert task t }

/-- `block_package`, as far as the status row goes. -/
def blockWrite (identity : Identity) (byAdmin : Bool) (id : PackageId) (reason : String) : Write :=
  ⟨byAdmin, id, .blocked reason (blockedByOf identity)⟩

/-- `unblock_package`, as far as the status row goes. -/
def unblockWrite (byAdmin : Bool) (id : PackageId) : Write := ⟨byAdmin, id, .available⟩

inductive BlockEvent where
  | start (task : ℕ) (job : Job)
  | read (task : ℕ) (failed : Bool)
  | write (task : ℕ) (took : Bool)

/-- The block is the audit's own. -/
def ownBlock : PackageStatus → Bool
  | .blocked _ blockedBy => decide (blockedBy = SYSTEM_ACTOR)
  | .available => false

/-- The block is somebody else's. -/
def othersBlock : PackageStatus → Bool
  | .blocked _ blockedBy => decide (blockedBy ≠ SYSTEM_ACTOR)
  | .available => false

def isBlocked : PackageStatus → Bool
  | .blocked _ _ => true
  | .available => false

/-- A task after its read. `unblock_one` goes on to the unblock where the block is the
audit's own, and reconciling to the block where there is none. -/
def afterRead (d : Desk) (failed : Bool) : Task → Task
  | .readEach (id :: rest) =>
    if !failed && ownBlock (d.statusOf id) then .lift id rest else .readEach rest
  | .checkEach ((id, reason) :: rest) =>
    if failed || isBlocked (d.statusOf id) then .checkEach rest else .blockChecked id reason rest
  | t => t

/-- The next write of a task, and what is left then. Neither loop stops at a failure. -/
def nextWrite : Task → Option (Write × Task)
  | .block admin id reason => some (blockWrite admin.1 true id reason, .done)
  | .unblock _ id => some (unblockWrite true id, .done)
  | .blockEach ((id, reason) :: rest) =>
    some (blockWrite systemIdentity false id reason, .blockEach rest)
  | .blockChecked id reason rest =>
    some (blockWrite systemIdentity false id reason, .checkEach rest)
  | .lift id rest => some (unblockWrite false id, .readEach rest)
  | _ => none

def blockStep (env : TextEnv) (d : Desk) : BlockEvent → Desk
  | .start task job =>
    match d.tasks.lookup task with
    | some _ => d
    | none => d.goOn task (taskOf env job)
  | .read task failed =>
    match d.tasks.lookup task with
    | some t => d.goOn task (afterRead d failed t)
    | none => d
  | .write task took =>
    match (d.tasks.lookup task).bind nextWrite with
    | some (w, t) => (d.setStatus w took).goOn task t
    | none => d

/-- Among the writes, an administrator's block of the version that no administrator has
lifted since. -/
def AdminHolds (log : List Write) (id : PackageId) : Prop :=
  ∃ before w after, log = before ++ w :: after ∧ w.id = id ∧ w.byAdmin = true ∧
    isBlocked w.status = true ∧
    ∀ u ∈ after, u.id = id → u.byAdmin = true → isBlocked u.status = true

/-- What an administrator has blocked and none has lifted is blocked. -/
def AdminBlocksStand (d : Desk) : Prop :=
  ∀ id, AdminHolds d.log id → isBlocked (d.statusOf id) = true

/-- The version whose status the task has read and that it writes next. -/
def checkedId : Task → Option PackageId
  | .lift id _ => some id
  | .blockChecked id _ _ => some id
  | _ => none

/-- Some task is between its check of the version and its write. -/
def BeforeItsWrite (d : Desk) (id : PackageId) : Prop :=
  ∃ task t, d.tasks.lookup task = some t ∧ checkedId t = some id

instance (d : Desk) (id : PackageId) : Decidable (BeforeItsWrite d id) :=
  inferInstanceAs (Decidable (∃ task t, d.tasks.lookup task = some t ∧ checkedId t = some id))

/-- A confirmation, which does not look, finds nobody else's block; and no administrator's
block lands between a check of the audit's and the write that follows it. -/
def Apart (d : Desk) : BlockEvent → Prop
  | .write task true =>
    match d.tasks.lookup task with
    | some (.blockEach ((id, _) :: _)) => othersBlock (d.statusOf id) = false
    | some (.block _ id _) => ¬ BeforeItsWrite d id
    | _ => True
  | _ => True

instance (d : Desk) : (e : BlockEvent) → Decidable (Apart d e)
  | .write task true => by
    unfold Apart
    dsimp only
    split <;> infer_instance
  | .write _ false => isTrue trivial
  | .start _ _ => isTrue trivial
  | .read _ _ => isTrue trivial

section Keeps

theorem isBlocked_of_othersBlock {status : PackageStatus} (h : othersBlock status = true) :
    isBlocked status = true := by
  cases status with
  | available => cases h
  | blocked reason blockedBy => rfl

theorem othersBlock_of_ownBlock {status : PackageStatus} (h : ownBlock status = true) :
    othersBlock status = false := by
  cases status with
  | available => rfl
  | blocked reason blockedBy => exact decide_eq_false (not_not_intro (of_decide_eq_true h))

theorem othersBlock_of_not_isBlocked {status : PackageStatus} (h : isBlocked status = false) :
    othersBlock status = false := by
  cases status with
  | available => rfl
  | blocked reason blockedBy => cases h

theorem statusOf_setStatus (d : Desk) (w : Write) (id : PackageId) :
    (d.setStatus w true).statusOf id = if id = w.id then w.status else d.statusOf id := by
  unfold Desk.setStatus Desk.statusOf
  rw [if_pos rfl]
  dsimp only
  rw [lookup_insert_eq]
  split_ifs <;> rfl

/-- The last write made the block, or left it. -/
theorem adminHolds_snoc {log : List Write} {w : Write} {id : PackageId}
    (h : AdminHolds (log ++ [w]) id) :
    (w.id = id ∧ w.byAdmin = true ∧ isBlocked w.status = true) ∨
      AdminHolds log id ∧ (w.id = id → w.byAdmin = true → isBlocked w.status = true) := by
  obtain ⟨before, v, after, hlog, hid, hadmin, hblocked, hafter⟩ := h
  rcases List.eq_nil_or_concat after with rfl | ⟨init, last, rfl⟩
  · obtain ⟨-, hlast⟩ := List.append_inj' hlog rfl
    obtain rfl : w = v := by simpa using hlast
    exact Or.inl ⟨hid, hadmin, hblocked⟩
  · rw [List.concat_eq_append, ← List.cons_append, ← List.append_assoc] at hlog
    obtain ⟨hinit, hlast⟩ := List.append_inj' hlog rfl
    obtain rfl : w = last := by simpa using hlast
    rw [List.concat_eq_append] at hafter
    refine Or.inr ⟨⟨before, v, init, hinit, hid, hadmin, hblocked, ?_⟩, ?_⟩
    · intro u hu
      exact hafter u (List.mem_append_left _ hu)
    · exact hafter w (List.mem_append_right _ List.mem_cons_self)

/-- What an administrator has blocked and none has lifted is blocked by somebody other
than the audit. -/
def AdminOwns (d : Desk) : Prop := ∀ id, AdminHolds d.log id → othersBlock (d.statusOf id) = true

theorem AdminOwns.opened (statuses : Assoc PackageId PackageStatus) :
    AdminOwns (Desk.opened statuses) := by
  rintro id ⟨before, w, after, hlog, -⟩
  exact absurd hlog.symm (by simp [Desk.opened])

/-- What is read to be the audit's own, or to be free, stays so up to the write. -/
def ChecksHold (d : Desk) : Prop :=
  ∀ id, BeforeItsWrite d id → othersBlock (d.statusOf id) = false

theorem ChecksHold.opened (statuses : Assoc PackageId PackageStatus) :
    ChecksHold (Desk.opened statuses) := by
  rintro id ⟨task, t, hlookup, -⟩
  rw [show (Desk.opened statuses).tasks = ∅ from rfl, AList.lookup_empty] at hlookup
  cases hlookup

theorem blockWrite_others (admin : Administrator) (id : PackageId) (reason : String) :
    othersBlock (blockWrite admin.1 true id reason).status = true :=
  decide_eq_true (blockedByOf_ne admin)

theorem blockWrite_own (id : PackageId) (reason : String) :
    othersBlock (blockWrite systemIdentity false id reason).status = false := by
  have hown : ownBlock (blockWrite systemIdentity false id reason).status = true := by
    simp [ownBlock, blockWrite, blockedByOf, systemIdentity]
  exact othersBlock_of_ownBlock hown

/-- The five writes: an administrator's two, the confirmation's, and the two that follow
a check. No task checks again without a read. -/
theorem nextWrite_cases {t t' : Task} {w : Write} (h : nextWrite t = some (w, t')) :
    checkedId t' = none ∧
      ((∃ admin id reason, t = .block admin id reason ∧ w = blockWrite admin.1 true id reason) ∨
        (∃ admin id, t = .unblock admin id ∧ w = unblockWrite true id) ∨
        (∃ id reason rest, t = .blockEach ((id, reason) :: rest) ∧
          w = blockWrite systemIdentity false id reason) ∨
        (∃ id reason, checkedId t = some id ∧ w = blockWrite systemIdentity false id reason) ∨
        ∃ id, checkedId t = some id ∧ w = unblockWrite false id) := by
  unfold nextWrite at h
  split at h
  · obtain ⟨rfl, rfl⟩ := Prod.mk.inj (Option.some.inj h)
    exact ⟨rfl, Or.inl ⟨_, _, _, rfl, rfl⟩⟩
  · obtain ⟨rfl, rfl⟩ := Prod.mk.inj (Option.some.inj h)
    exact ⟨rfl, Or.inr (Or.inl ⟨_, _, rfl, rfl⟩)⟩
  · obtain ⟨rfl, rfl⟩ := Prod.mk.inj (Option.some.inj h)
    exact ⟨rfl, Or.inr (Or.inr (Or.inl ⟨_, _, _, rfl, rfl⟩))⟩
  · obtain ⟨rfl, rfl⟩ := Prod.mk.inj (Option.some.inj h)
    exact ⟨rfl, Or.inr (Or.inr (Or.inr (Or.inl ⟨_, _, rfl, rfl⟩)))⟩
  · obtain ⟨rfl, rfl⟩ := Prod.mk.inj (Option.some.inj h)
    exact ⟨rfl, Or.inr (Or.inr (Or.inr (Or.inr ⟨_, rfl, rfl⟩)))⟩
  · cases h

theorem nextWrite_byAdmin {t t' : Task} {w : Write} (h : nextWrite t = some (w, t'))
    (hadmin : w.byAdmin = true) (hblocked : isBlocked w.status = true) :
    othersBlock w.status = true := by
  rcases (nextWrite_cases h).2 with ⟨admin, id, reason, -, rfl⟩ | ⟨admin, id, -, rfl⟩ |
    ⟨id, reason, rest, -, rfl⟩ | ⟨id, reason, -, rfl⟩ | ⟨id, -, rfl⟩
  · exact blockWrite_others admin id reason
  · cases hblocked
  · cases hadmin
  · cases hadmin
  · cases hadmin

/-- A write of the audit's meets nobody else's block: the confirmation's by the condition,
the lift and the reconciling by their checks. -/
theorem nextWrite_spares {d : Desk} (h : ChecksHold d) {task : ℕ} {t t' : Task} {w : Write}
    (htask : d.tasks.lookup task = some t) (hnext : nextWrite t = some (w, t'))
    (hguard : Apart d (.write task true)) (haudit : w.byAdmin = false) :
    othersBlock (d.statusOf w.id) = false := by
  rcases (nextWrite_cases hnext).2 with ⟨admin, id, reason, -, rfl⟩ | ⟨admin, id, -, rfl⟩ |
    ⟨id, reason, rest, rfl, rfl⟩ | ⟨id, reason, hchecked, rfl⟩ | ⟨id, hchecked, rfl⟩
  · cases haudit
  · cases haudit
  · unfold Apart at hguard
    dsimp only at hguard
    rw [htask] at hguard
    exact hguard
  · exact h id ⟨task, t, htask, hchecked⟩
  · exact h id ⟨task, t, htask, hchecked⟩

/-- A write over a version that is about to be written leaves it the audit's or free. -/
theorem nextWrite_beside {d : Desk} {task : ℕ} {t t' : Task} {w : Write}
    (htask : d.tasks.lookup task = some t) (hnext : nextWrite t = some (w, t'))
    (hguard : Apart d (.write task true)) (hbefore : BeforeItsWrite d w.id) :
    othersBlock w.status = false := by
  rcases (nextWrite_cases hnext).2 with ⟨admin, id, reason, rfl, rfl⟩ | ⟨admin, id, -, rfl⟩ |
    ⟨id, reason, rest, -, rfl⟩ | ⟨id, reason, -, rfl⟩ | ⟨id, -, rfl⟩
  · unfold Apart at hguard
    dsimp only at hguard
    rw [htask] at hguard
    exact absurd hbefore hguard
  · rfl
  · exact blockWrite_own id reason
  · exact blockWrite_own id reason
  · rfl

/-- One write: an administrator's says whose block it is, and the audit's finds nobody
else's. -/
theorem setStatus_owns {d : Desk} (h : AdminOwns d) (w : Write)
    (hadmin : w.byAdmin = true → isBlocked w.status = true → othersBlock w.status = true)
    (haudit : w.byAdmin = false → othersBlock (d.statusOf w.id) = false) :
    AdminOwns (d.setStatus w true) := by
  intro id hholds
  have hlog : (d.setStatus w true).log = d.log ++ [w] := rfl
  rw [hlog] at hholds
  rw [statusOf_setStatus]
  rcases adminHolds_snoc hholds with ⟨hid, hbyAdmin, hblocked⟩ | ⟨hbefore, hleft⟩
  · rw [if_pos hid.symm]
    exact hadmin hbyAdmin hblocked
  · by_cases hid : id = w.id
    · rw [if_pos hid]
      cases hbyAdmin : w.byAdmin with
      | true => exact hadmin hbyAdmin (hleft hid.symm hbyAdmin)
      | false =>
        -- the version would be blocked by an administrator, over whom the audit wrote
        have hfalse := haudit hbyAdmin
        rw [← hid, h id hbefore] at hfalse
        cases hfalse
    · rw [if_neg hid]
      exact h id hbefore

theorem setStatus_checksHold {d : Desk} (h : ChecksHold d) (w : Write)
    (hbeside : BeforeItsWrite d w.id → othersBlock w.status = false) :
    ChecksHold (d.setStatus w true) := by
  intro id hbefore
  rw [statusOf_setStatus]
  split_ifs with hid
  · subst hid
    exact hbeside hbefore
  · exact h id hbefore

/-- A task that goes on has checked nothing, or what it has just read. -/
theorem goOn_checksHold {d : Desk} (h : ChecksHold d) (task : ℕ) (t : Task)
    (hread : ∀ id, checkedId t = some id → othersBlock (d.statusOf id) = false) :
    ChecksHold (d.goOn task t) := by
  rintro id ⟨other, t', hlookup, hchecked⟩
  have hinsert : (d.tasks.insert task t).lookup other = some t' := hlookup
  rw [lookup_insert_eq] at hinsert
  split_ifs at hinsert with hsame
  · obtain rfl := Option.some.inj hinsert
    exact hread id hchecked
  · exact h id ⟨other, t', hinsert, hchecked⟩

theorem taskOf_checkedId (env : TextEnv) (job : Job) : checkedId (taskOf env job) = none := by
  cases job with
  | reappeared kind row versions =>
    unfold taskOf
    dsimp only
    split_ifs <;> rfl
  | _ => rfl

/-- The check: a read lets a task go on to its write only where no block is somebody
else's. -/
theorem afterRead_checked {d : Desk} (failed : Bool) {t : Task} {id : PackageId}
    (h : checkedId (afterRead d failed t) = some id) :
    othersBlock (d.statusOf id) = false ∨ checkedId t = some id := by
  unfold afterRead at h
  split at h
  · split_ifs at h with hown
    · obtain rfl := Option.some.inj h
      exact Or.inl (othersBlock_of_ownBlock (Bool.and_eq_true_iff.mp hown).2)
    · cases h
  · split_ifs at h with hblocked
    · cases h
    · obtain rfl := Option.some.inj h
      rw [Bool.or_eq_true, not_or] at hblocked
      exact Or.inl (othersBlock_of_not_isBlocked (Bool.eq_false_iff.mpr hblocked.2))
  · exact Or.inr h

theorem goOn_owns {d : Desk} (h : AdminOwns d) (task : ℕ) (t : Task) :
    AdminOwns (d.goOn task t) := h

/-- The administrators own their blocks, and the audit's checks hold up to its writes. -/
def Owned (d : Desk) : Prop := AdminOwns d ∧ ChecksHold d

theorem blockStep_owned (env : TextEnv) (d : Desk) (e : BlockEvent) (h : Owned d)
    (hguard : Apart d e) : Owned (blockStep env d e) := by
  obtain ⟨howns, hchecks⟩ := h
  unfold blockStep
  cases e with
  | start task job =>
    dsimp only
    cases d.tasks.lookup task with
    | some t => exact ⟨howns, hchecks⟩
    | none =>
      refine ⟨goOn_owns howns _ _, goOn_checksHold hchecks _ _ ?_⟩
      intro id hchecked
      rw [taskOf_checkedId] at hchecked
      cases hchecked
  | read task failed =>
    dsimp only
    cases htask : d.tasks.lookup task with
    | none => exact ⟨howns, hchecks⟩
    | some t =>
      refine ⟨goOn_owns howns _ _, goOn_checksHold hchecks _ _ ?_⟩
      intro id hchecked
      rcases afterRead_checked failed hchecked with hread | hbefore
      · exact hread
      · exact hchecks id ⟨task, t, htask, hbefore⟩
  | write task took =>
    dsimp only
    cases hnext : (d.tasks.lookup task).bind nextWrite with
    | none => exact ⟨howns, hchecks⟩
    | some p =>
      obtain ⟨w, t'⟩ := p
      obtain ⟨t, htask, hwrite⟩ := Option.bind_eq_some_iff.mp hnext
      have hdone : ∀ id, checkedId t' = some id →
          othersBlock ((d.setStatus w took).statusOf id) = false := by
        intro id hchecked
        rw [(nextWrite_cases hwrite).1] at hchecked
        cases hchecked
      refine ⟨goOn_owns ?_ _ _, goOn_checksHold ?_ _ _ hdone⟩
      · cases took with
        | false => exact howns
        | true =>
          exact setStatus_owns howns w (nextWrite_byAdmin hwrite)
            (nextWrite_spares hchecks htask hwrite hguard)
      · cases took with
        | false => exact hchecks
        | true => exact setStatus_checksHold hchecks w (nextWrite_beside htask hwrite hguard)

end Keeps

/-- An administrator's block stands until an administrator lifts it, in every run in which
the confirmations meet no block of somebody else's and no administrator's block lands
between a check of the audit's and its write. -/
theorem admin_blocks_stand (env : TextEnv) (statuses : Assoc PackageId PackageStatus)
    (events : List BlockEvent)
    (hguard : Runs.Guarded (blockStep env) Apart (Desk.opened statuses) events) :
    AdminBlocksStand (Runs.run (blockStep env) (Desk.opened statuses) events) := by
  have howned := Runs.run_keeps Apart Owned (blockStep_owned env) _ events
    ⟨AdminOwns.opened statuses, ChecksHold.opened statuses⟩ hguard
  intro id hholds
  exact isBlocked_of_othersBlock (howned.1 id hholds)

section Samples

def sampleAdmin : Administrator := ⟨⟨some "root", .admin, none, []⟩, by decide⟩

def goneRow : UpstreamStatus := ⟨"pypi", "left", some "1.0", .disappeared, 0, 9, some 9, 3⟩

def leftId : PackageId := PackageId.new "pypi" "left" "1.0"

def blockByHand : List BlockEvent := [.start 0 (.block sampleAdmin leftId "malware"), .write 0 true]

def confirm1 : List BlockEvent := [.start 1 (.confirmed .pypi goneRow ["1.0"]), .write 1 true]

def reappear2 : List BlockEvent :=
  [.start 2 (.reappeared .pypi goneRow ["1.0"]), .read 2 false, .write 2 true]

def deskAfter (events : List BlockEvent) : Desk :=
  Runs.run (blockStep LocalPackages.asciiEnv) (Desk.opened ∅) events

def otherId : PackageId := PackageId.new "pypi" "left" "2.0"

/-- The other version is blocked between the audit's check of this one and its unblock,
this one after it, and reconciling finds that block. -/
def blocksBetween : List BlockEvent :=
  [.start 2 (.reappeared .pypi goneRow ["1.0"]), .read 2 false,
    .start 3 (.block sampleAdmin otherId "malware"), .write 3 true, .write 2 true,
    .start 4 (.block sampleAdmin leftId "typosquat"), .write 4 true,
    .start 5 (.reconcile .pypi [goneRow] ∅), .read 5 false, .write 5 true]

/-- The administrator's block comes after the audit's and before the reappearance, or
beside it. -/
theorem block_after_the_audits_stands :
    ((deskAfter (confirm1 ++ blockByHand ++ reappear2)).statusOf leftId =
        .blocked "malware" "root" ∧
      AdminBlocksStand (deskAfter (confirm1 ++ blockByHand ++ reappear2))) ∧
    (deskAfter (confirm1 ++ blocksBetween)).statusOf leftId = .blocked "typosquat" "root" ∧
      (deskAfter (confirm1 ++ blocksBetween)).statusOf otherId = .blocked "malware" "root" ∧
      AdminBlocksStand (deskAfter (confirm1 ++ blocksBetween)) :=
  ⟨⟨by decide +kernel, admin_blocks_stand LocalPackages.asciiEnv ∅ _ (by decide +kernel)⟩,
    by decide +kernel, by decide +kernel,
    admin_blocks_stand LocalPackages.asciiEnv ∅ _ (by decide +kernel)⟩

/-- An administrator's block is among the writes, and the audit has made the later ones. -/
theorem not_adminBlocksStand {d : Desk} (before : List Write) {after : List Write} (w : Write)
    (hlog : d.log = before ++ w :: after) (hadmin : w.byAdmin = true)
    (hblocked : isBlocked w.status = true) (hafter : ∀ u ∈ after, u.byAdmin = false)
    (hstatus : d.statusOf w.id = .available) : ¬ AdminBlocksStand d := by
  intro h
  have hstands := h w.id ⟨before, w, after, hlog, rfl, hadmin, hblocked, by
    intro u hu _ hu'
    rw [hafter u hu] at hu'
    cases hu'⟩
  rw [hstatus] at hstands
  cases hstands

/-- The audit blocks the version over the administrator's block, and lifts it; or the
administrator blocks it between the audit's check and its unblock. -/
theorem admin_block_is_lifted :
    (¬ AdminBlocksStand (deskAfter (blockByHand ++ confirm1 ++ reappear2))) ∧
    ¬ AdminBlocksStand (deskAfter (confirm1 ++
      [.start 2 (.reappeared .pypi goneRow ["1.0"]), .read 2 false] ++ blockByHand ++
        [.write 2 true])) := by
  have hlifted : ∀ u ∈ [unblockWrite false leftId], u.byAdmin = false := by
    intro u hu
    rw [List.mem_singleton.mp hu]
    rfl
  refine ⟨?_, ?_⟩
  · refine not_adminBlocksStand [] (blockWrite sampleAdmin.1 true leftId "malware") rfl rfl rfl ?_
      (by decide +kernel)
    intro u hu
    rcases List.mem_cons.mp hu with rfl | hu
    · rfl
    · exact hlifted u hu
  · exact not_adminBlocksStand
      [blockWrite systemIdentity false leftId (blockReason LocalPackages.asciiEnv goneRow)]
      (blockWrite sampleAdmin.1 true leftId "malware") rfl rfl rfl hlifted (by decide +kernel)

end Samples

end BatleHub.UpstreamAudit
