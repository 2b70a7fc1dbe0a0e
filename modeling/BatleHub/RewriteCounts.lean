import BatleHub.ErasureRuns
import BatleHub.SealedRuns

/-!
One `rewrite` of `services/audit_trail.rs` and the number it reports, with the store
answering `Conflict` at any commit and other writers between any two accesses. A batch
commits its rows outside the sealed windows first and then window by window; what it has
committed counts only once it is through.
-/
namespace BatleHub.RewriteCounts

open LocalPackages AuditEvents SealChain AuditStore AuditTrail ErasedRows ErasureRuns SealedRuns Lib.Runs

/-- Where a rewrite stands, or what it returned: the number it reports, or an error. -/
inductive Progress where
  | running (changed conflicts : ℕ) (phase : BatchPhase)
  | returned (result : Option ℕ)

def Progress.result : Progress → Option ℕ
  | .running _ _ _ => none
  | .returned result => result

/-- The rows, each with an id of its own, and the seal records. -/
structure Store extends Trail where
  unique : (events.map (·.id)).Nodup

/-- A rewrite with the rows its commits have changed, and how many of its operations were
committed by batches that a conflict cut off. -/
structure Rewriting where
  trail : Trail
  progress : Progress
  committed : ℕ
  abandoned : ℕ

/-- What the store answers besides its own check of a commit. -/
inductive Answer where
  | asIs
  | conflict
  | failed
  deriving DecidableEq, Repr

inductive Event where
  | access (answer : Answer)
  | others (store : Store)

def progressOf (changed : ℕ) : State → Progress
  | .rewriting _ _ changed conflicts phase => .running changed conflicts phase
  | .finished true => .returned (some changed)
  | _ => .returned none

def Rewriting.start (store : Store) : Rewriting := ⟨store.toTrail, .running 0 0 .ready, 0, 0⟩

/-- The operations a batch has committed so far. -/
def doneIn : BatchPhase → ℕ
  | .grouped _ done _ => done
  | .built _ done _ _ _ => done
  | _ => 0

/-- The rows that the operations name. -/
def rowsHit (ops : List RowOp) (events : List AccessEvent) : ℕ :=
  events.countP fun e => ops.any fun op => decide (op.id = e.id)

section Steps
variable (lib : Libraries) (truncateIp : String → String) (policy : AuditPolicy)
  (current : Rewrite)

/-- What the phase is about to commit. -/
def batchOf : BatchPhase → Option TrailBatch
  | .loose head ops _ =>
    some ⟨ops, none, if policy.sealing.isSome then some (headSeq head) else none⟩
  | .built head _ record ops _ => some ⟨ops, some record, some (headSeq head)⟩
  | _ => none

/-- A commit is answered with a conflict. -/
def refused (answer : Answer) (phase : BatchPhase) (trail : Trail) : Bool :=
  (batchOf policy phase).any fun batch =>
    decide (answer = .conflict) || !(apply lib batch trail).isOk

def committedBy (phase : BatchPhase) (trail : Trail) : ℕ :=
  (batchOf policy phase).elim 0 fun batch => rowsHit batch.ops trail.events

def step (s : Rewriting) : Event → Rewriting
  | .others store => { s with trail := store.toTrail }
  | .access answer =>
    match s.progress with
    | .returned _ => s
    | .running changed conflicts phase =>
      if answer = .failed then { s with progress := .returned none }
      else if refused lib policy answer phase s.trail = true then
        { s with
          progress := progressOf changed (retry current [] changed conflicts)
          abandoned := s.abandoned + doneIn phase }
      else
        let next := rewriteStep lib truncateIp policy s.trail current [] changed conflicts phase
        { s with
          trail := next.1
          progress := progressOf changed next.2
          committed := s.committed + committedBy policy phase s.trail }

end Steps

section Laws
variable (lib : Libraries) (policy : AuditPolicy)

/-- No commit is answered with a conflict after another one of its batch. -/
def NoLateConflict (s : Rewriting) : Event → Prop
  | .access answer => ∀ changed conflicts phase, s.progress = .running changed conflicts phase →
    answer ≠ .failed → refused lib policy answer phase s.trail = true → doneIn phase = 0
  | .others _ => True

/-- A commit finds every row it changes. -/
def EachFound (s : Rewriting) : Event → Prop
  | .access answer => ∀ changed conflicts phase batch,
    s.progress = .running changed conflicts phase → batchOf policy phase = some batch →
    answer ≠ .failed → refused lib policy answer phase s.trail = false →
    ∀ op ∈ batch.ops, op.id ∈ s.trail.events.map (·.id)
  | .others _ => True

/-- The call is the only writer. -/
def Alone : Event → Prop
  | .access _ => True
  | .others _ => False

/-- The query and the change of a rewrite that the lifecycle, the purge and the erasure make;
a pseudonym is no user's id. -/
def Paired : CandidateQuery → Change → Prop
  | .expire _ _, .delete => True
  | .pseudonymise _, .pseudonymise => True
  | .subject userId, .erase other name => other = userId ∧ name ≠ userId
  | _, _ => False

/-- No row within the bound matches the query. -/
def NoneLeft (current : Rewrite) (events : List AccessEvent) : Prop :=
  ∀ e ∈ events, (∀ b, current.createdBefore = some b → e.timestamp < b) →
    current.query.matches e = false

end Laws

section Plans

/-- The operations of a batch that are not committed yet. -/
def pending : BatchPhase → List RowOp
  | .loose _ ops groups => ops ++ groups.flatMap (·.ops)
  | .grouped _ _ groups => groups.flatMap (·.ops)
  | .built _ _ _ ops groups => ops ++ groups.flatMap (·.ops)
  | _ => []

theorem flatMap_pushGroup (window : Window) (op : RowOp) (groups : List Group) :
    ((pushGroup window op groups).flatMap (·.ops)).Perm (op :: groups.flatMap (·.ops)) := by
  induction groups with
  | nil => exact List.Perm.refl _
  | cons g rest ih =>
    rw [pushGroup]
    split
    · exact List.Perm.refl _
    · split
      · simp only [List.flatMap_cons, List.append_assoc, List.singleton_append]
        exact List.perm_middle
      · simp only [List.flatMap_cons]
        exact (ih.append_left g.ops).trans List.perm_middle

/-- A plan has at most one operation for each row. -/
theorem plan_subperm (truncateIp : String → String) (sealing : Bool) (w : Windows)
    (change : Change) (rows : List AccessEvent) :
    (((planRows truncateIp sealing w change rows).loose ++
      (planRows truncateIp sealing w change rows).groups.flatMap (·.ops)).map RowOp.id).Subperm
        (rows.map (·.id)) := by
  induction rows using List.reverseRecOn with
  | nil => exact List.Subperm.refl _
  | append_singleton rows row ih =>
    unfold planRows at ih ⊢
    rw [List.foldl_append, List.foldl_cons, List.foldl_nil]
    generalize rows.foldl (planRow truncateIp sealing w change) ⟨[], []⟩ = plan at ih ⊢
    have hrows : (row.id :: rows.map (·.id)).Perm ((rows ++ [row]).map (·.id)) := by
      rw [List.map_append]
      exact (List.perm_append_singleton _ _).symm
    refine List.Subperm.trans ?_ hrows.subperm
    unfold planRow
    cases hop : change.op truncateIp row with
    | none => exact ih.trans (List.sublist_cons_self _ _).subperm
    | some op =>
      dsimp only
      rw [← op_id truncateIp hop]
      have hgoal : (op.id :: (plan.loose ++ plan.groups.flatMap (·.ops)).map RowOp.id).Subperm
          (op.id :: rows.map (·.id)) := List.subperm_cons _ |>.mpr ih
      refine List.Subperm.trans (List.Perm.subperm ?_) hgoal
      rw [← List.map_cons]
      refine List.Perm.map _ ?_
      split
      · exact ((flatMap_pushGroup _ op plan.groups).append_left plan.loose).trans List.perm_middle
      · dsimp only
        rw [List.append_assoc]
        exact List.perm_middle

theorem candidates_subperm (events : List AccessEvent) (query : CandidateQuery)
    (createdBefore : Option DateTime) (limit : ℕ) :
    ((candidates events query createdBefore limit).map (·.id)).Subperm (events.map (·.id)) := by
  refine ((List.take_sublist _ _).map _).subperm.trans ?_
  exact ((List.perm_insertionSort _ _).map _).subperm.trans (List.filter_sublist.map _).subperm

theorem nodup_of_subperm {α : Type*} {l l' : List α} (h : l.Subperm l') (hnodup : l'.Nodup) :
    l.Nodup := by
  obtain ⟨mid, hperm, hsub⟩ := h
  exact hperm.nodup_iff.mp (hnodup.sublist hsub)

end Plans

theorem rowsHit_eq_length {ops : List RowOp} {events : List AccessEvent}
    (hunique : (events.map (·.id)).Nodup) (hops : (ops.map RowOp.id).Nodup)
    (hfound : ∀ op ∈ ops, op.id ∈ events.map (·.id)) : rowsHit ops events = ops.length := by
  have hperm : ((events.map (·.id)).filter fun id => decide (id ∈ ops.map RowOp.id)).Perm
      (ops.map RowOp.id) := by
    rw [List.perm_ext_iff_of_nodup (hunique.filter _) hops]
    intro id
    rw [List.mem_filter, decide_eq_true_iff]
    refine and_iff_right_of_imp fun hid => ?_
    obtain ⟨op, hop, rfl⟩ := List.mem_map.mp hid
    exact hfound op hop
  have hlength := hperm.length_eq
  rw [List.length_map, ← List.countP_eq_length_filter, List.countP_map] at hlength
  rw [← hlength]
  unfold rowsHit
  apply List.countP_congr
  intro e _
  simp

section Accesses
variable {lib : Libraries} {policy : AuditPolicy} (truncateIp : String → String)
  (current : Rewrite)

/-- What the phase commits, if it commits. -/
def committing (policy : AuditPolicy) (phase : BatchPhase) : List RowOp :=
  (batchOf policy phase).elim [] (·.ops)

theorem committedBy_eq (phase : BatchPhase) (trail : Trail) :
    committedBy policy phase trail = rowsHit (committing policy phase) trail.events := by
  unfold committedBy committing
  cases batchOf policy phase with
  | none => exact (List.countP_eq_zero.mpr (by simp)).symm
  | some batch => rfl

theorem apply_of_not_refused {answer : Answer} {phase : BatchPhase} {trail : Trail}
    {batch : TrailBatch} (h : refused lib policy answer phase trail = false)
    (hbatch : batchOf policy phase = some batch) : ∃ trail', apply lib batch trail = .ok trail' := by
  unfold refused at h
  rw [hbatch, Option.any_some, Bool.or_eq_false_iff, Bool.not_eq_false'] at h
  cases hresult : apply lib batch trail with
  | error e =>
    rw [hresult] at h
    cases h.2
  | ok trail' => exact ⟨trail', rfl⟩

/-- An access that is no refused commit: the rewrite ends on what it has counted, or goes on
with the rest of the batch or with the plan of a new one. -/
theorem access_cases {answer : Answer} {phase : BatchPhase} {trail : Trail}
    (h : refused lib policy answer phase trail = false) (changed conflicts : ℕ) :
    (rewriteStep lib truncateIp policy trail current [] changed conflicts phase).1.events =
        stageAll (committing policy phase) trail.events ∧
      ((progressOf changed
          (rewriteStep lib truncateIp policy trail current [] changed conflicts phase).2 =
            .returned (some changed) ∧ doneIn phase = 0 ∧ committing policy phase = []) ∨
        ∃ changed' conflicts' phase', progressOf changed
            (rewriteStep lib truncateIp policy trail current [] changed conflicts phase).2 =
              .running changed' conflicts' phase' ∧
          changed' + doneIn phase' = changed + doneIn phase + (committing policy phase).length ∧
          (pending phase = committing policy phase ++ pending phase' ∨
            committing policy phase = [] ∧
              ((pending phase').map RowOp.id).Subperm (trail.events.map (·.id)))) := by
  cases phase with
  | ready =>
    refine ⟨by simp only [rewriteStep]; split <;> rfl, ?_⟩
    simp only [rewriteStep]
    split
    · exact .inl ⟨rfl, rfl, rfl⟩
    · exact .inr ⟨_, _, _, rfl, rfl, .inl rfl⟩
  | windowsRead w =>
    have hplan := (plan_subperm truncateIp policy.sealing.isSome w current.change
      (candidates trail.events current.query current.createdBefore batchSize)).trans
        (candidates_subperm trail.events current.query current.createdBefore batchSize)
    simp only [rewriteStep]
    split
    · exact ⟨rfl, .inl ⟨rfl, rfl, rfl⟩⟩
    · split
      · rename_i hloose
        refine ⟨rfl, .inr ⟨_, _, _, rfl, rfl, .inr ⟨rfl, ?_⟩⟩⟩
        rw [List.isEmpty_iff.mp hloose, List.nil_append] at hplan
        exact hplan
      · exact ⟨rfl, .inr ⟨_, _, _, rfl, rfl, .inr ⟨rfl, hplan⟩⟩⟩
  | loose head ops groups =>
    obtain ⟨trail', htrail⟩ := apply_of_not_refused h rfl
    simp only [rewriteStep, htrail]
    refine ⟨(apply_eq_ok htrail).2.1, .inr ⟨_, _, _, rfl, ?_, .inl rfl⟩⟩
    rfl
  | grouped head done groups =>
    cases groups with
    | nil =>
      simp only [rewriteStep]
      split
      · rename_i hdone
        exact ⟨rfl, .inl ⟨rfl, hdone, rfl⟩⟩
      · exact ⟨rfl, .inr ⟨_, _, _, rfl, rfl, .inl rfl⟩⟩
    | cons g groups => exact ⟨rfl, .inr ⟨_, _, _, rfl, rfl, .inl rfl⟩⟩
  | built head done record ops groups =>
    obtain ⟨trail', htrail⟩ := apply_of_not_refused h rfl
    simp only [rewriteStep, htrail]
    refine ⟨(apply_eq_ok htrail).2.1, .inr ⟨_, _, _, rfl, ?_, .inl rfl⟩⟩
    exact (Nat.add_assoc changed done ops.length).symm

theorem progressOf_retry (changed conflicts : ℕ) :
    progressOf changed (retry current [] changed conflicts) = .returned none ∨
      progressOf changed (retry current [] changed conflicts) =
        .running changed (conflicts + 1) .ready := by
  unfold retry
  split
  · exact .inl rfl
  · exact .inr rfl

end Accesses

section Counting
variable {lib : Libraries} {truncateIp : String → String} {policy : AuditPolicy}
  {current : Rewrite} {s : Rewriting}

/-- Rows and pending operations have ids of their own. -/
structure Distinct (s : Rewriting) : Prop where
  rows : (s.trail.events.map (·.id)).Nodup
  ops : ∀ changed conflicts phase, s.progress = .running changed conflicts phase →
    ((pending phase).map RowOp.id).Nodup

theorem distinct_step (h : Distinct s) (e : Event) :
    Distinct (step lib truncateIp policy current s e) := by
  cases e with
  | others store => exact ⟨store.unique, h.ops⟩
  | access answer =>
    unfold step
    cases hprogress : s.progress with
    | returned result => exact h
    | running changed conflicts phase =>
      have hops := h.ops changed conflicts phase hprogress
      dsimp only
      split
      · exact ⟨h.rows, fun _ _ _ hrunning => by cases hrunning⟩
      · split
        · refine ⟨h.rows, fun changed' conflicts' phase' hrunning => ?_⟩
          rcases progressOf_retry current changed conflicts with hend | hagain
          · cases hend.symm.trans hrunning
          · cases hagain.symm.trans hrunning
            exact List.nodup_nil
        · rename_i hrefused
          obtain ⟨hevents, hnext⟩ := access_cases truncateIp current
            (Bool.eq_false_iff.mpr hrefused) changed conflicts
          refine ⟨?_, fun changed' conflicts' phase' hrunning => ?_⟩
          · dsimp only
            rw [hevents]
            exact h.rows.sublist (ids_stageAll_sublist _ _)
          · rcases hnext with ⟨hend, -, -⟩ | ⟨_, _, _, hgoes, -, hpending⟩
            · cases hend.symm.trans hrunning
            · cases hgoes.symm.trans hrunning
              rcases hpending with hsplit | ⟨-, hplan⟩
              · rw [hsplit, List.map_append] at hops
                exact hops.sublist (List.sublist_append_right _ _)
              · exact nodup_of_subperm hplan h.rows

/-- What is counted and what was abandoned is what was committed. -/
def Accounts (s : Rewriting) : Prop :=
  match s.progress with
  | .running changed _ phase => changed + doneIn phase + s.abandoned = s.committed
  | .returned (some n) => n + s.abandoned = s.committed
  | .returned none => True

theorem accounts_step (hdistinct : Distinct s) (h : Accounts s) {e : Event}
    (hfound : EachFound lib policy s e) : Accounts (step lib truncateIp policy current s e) := by
  cases e with
  | others store => exact h
  | access answer =>
    unfold step
    cases hprogress : s.progress with
    | returned result => exact h
    | running changed conflicts phase =>
      have hcounted : changed + doneIn phase + s.abandoned = s.committed := by
        unfold Accounts at h
        rwa [hprogress] at h
      dsimp only
      split
      · trivial
      · rename_i hanswer
        split
        · rcases progressOf_retry current changed conflicts with hend | hagain
          · unfold Accounts
            dsimp only
            rw [hend]
            trivial
          · unfold Accounts
            dsimp only
            rw [hagain, ← hcounted]
            change changed + 0 + _ = _
            omega
        · rename_i hrefused
          rw [Bool.not_eq_true] at hrefused
          obtain ⟨-, hnext⟩ := access_cases truncateIp current hrefused
            changed conflicts
          have hhit : rowsHit (committing policy phase) s.trail.events =
              (committing policy phase).length := by
            cases hbatch : batchOf policy phase with
            | none =>
              unfold committing
              rw [hbatch]
              exact List.countP_eq_zero.mpr (by simp)
            | some batch =>
              have hops : ((committing policy phase).map RowOp.id).Nodup := by
                refine (hdistinct.ops changed conflicts phase hprogress).sublist ?_
                rcases hnext with ⟨-, -, hnone⟩ | ⟨_, _, phase', -, -, hsplit | ⟨hnone, -⟩⟩
                · rw [hnone]
                  exact List.nil_sublist _
                · rw [hsplit, List.map_append]
                  exact List.sublist_append_left _ _
                · rw [hnone]
                  exact List.nil_sublist _
              refine rowsHit_eq_length hdistinct.rows hops fun op hop => ?_
              unfold committing at hop
              rw [hbatch] at hop
              exact hfound changed conflicts phase batch hprogress hbatch hanswer hrefused op hop
          unfold Accounts
          dsimp only
          rw [committedBy_eq, hhit]
          rcases hnext with ⟨hend, hdone, hnone⟩ | ⟨changed', _, phase', hgoes, htally, -⟩
          · rw [hend, hnone, ← hcounted, hdone]
            rfl
          · rw [hgoes]
            change changed' + doneIn phase' + s.abandoned = _
            omega

/-- Operations are abandoned by late conflicts only. -/
theorem abandoned_step_iff (e : Event) :
    (step lib truncateIp policy current s e).abandoned = 0 ↔
      s.abandoned = 0 ∧ NoLateConflict lib policy s e := by
  cases e with
  | others store => exact (and_iff_left trivial).symm
  | access answer =>
    unfold step NoLateConflict
    cases hprogress : s.progress with
    | returned result => simp
    | running changed conflicts phase =>
      dsimp only
      split
      · rename_i hanswer
        simp [hanswer]
      · rename_i hanswer
        split
        · rename_i hrefused
          dsimp only
          rw [Nat.add_eq_zero_iff]
          refine and_congr_right fun _ => ⟨?_, fun h => h _ _ _ rfl hanswer hrefused⟩
          intro hdone _ _ _ hrunning _ _
          cases hrunning
          exact hdone
        · rename_i hrefused
          refine (and_iff_left ?_).symm
          intro _ _ _ hrunning _ hlate
          cases hrunning
          exact absurd hlate hrefused

/-- Every pending operation is of a row that is there. -/
def Present (s : Rewriting) : Prop :=
  ∀ changed conflicts phase, s.progress = .running changed conflicts phase →
    ∀ id ∈ (pending phase).map RowOp.id, id ∈ s.trail.events.map (·.id)

theorem present_step (hdistinct : Distinct s) (h : Present s) {e : Event} (halone : Alone e) :
    Present (step lib truncateIp policy current s e) := by
  cases e with
  | others store => cases halone
  | access answer =>
    unfold step
    cases hprogress : s.progress with
    | returned result => exact h
    | running changed conflicts phase =>
      have hids := h changed conflicts phase hprogress
      have hops := hdistinct.ops changed conflicts phase hprogress
      dsimp only
      split
      · intro _ _ _ hrunning
        cases hrunning
      · split
        · intro _ _ _ hrunning
          rcases progressOf_retry current changed conflicts with hend | hagain
          · cases hend.symm.trans hrunning
          · cases hagain.symm.trans hrunning
            intro id hid
            cases hid
        · rename_i hrefused
          obtain ⟨hevents, hnext⟩ := access_cases truncateIp current
            (Bool.eq_false_iff.mpr hrefused) changed conflicts
          intro _ _ _ hrunning id hid
          dsimp only
          rw [hevents]
          rcases hnext with ⟨hend, -, -⟩ | ⟨_, _, phase', hgoes, -, hpending⟩
          · cases hend.symm.trans hrunning
          · cases hgoes.symm.trans hrunning
            rcases hpending with hsplit | ⟨hnone, hplan⟩
            · -- the rest of the batch is of other rows than the commit's
              rw [hsplit, List.map_append] at hids hops
              refine id_mem_stageAll (hids id (List.mem_append_right _ hid)) fun hcommitted => ?_
              exact (List.nodup_append'.mp hops).2.2 hcommitted hid
            · rw [hnone]
              exact hplan.subset hid

theorem batch_subset_pending {phase : BatchPhase} {batch : TrailBatch}
    (h : batchOf policy phase = some batch) : batch.ops ⊆ pending phase := by
  cases phase with
  | loose head ops groups =>
    obtain rfl := Option.some.inj h
    exact List.subset_append_left _ _
  | built head done record ops groups =>
    obtain rfl := Option.some.inj h
    exact List.subset_append_left _ _
  | _ => cases h

theorem eachFound_of_present (h : Present s) (e : Event) : EachFound lib policy s e := by
  cases e with
  | others store => trivial
  | access answer =>
    intro changed conflicts phase batch hrunning hbatch _ _ op hop
    exact h changed conflicts phase hrunning op.id
      (List.mem_map_of_mem (batch_subset_pending hbatch hop))

end Counting

section Leftovers
variable {lib : Libraries} {truncateIp : String → String} {policy : AuditPolicy}
  {current : Rewrite} {s : Rewriting}

/-- Every row that a query finds is changed by its operation. -/
theorem paired_op {query : CandidateQuery} {change : Change} (hpaired : Paired query change)
    {e : AccessEvent} (h : query.matches e = true) : change.op truncateIp e ≠ none := by
  cases query with
  | expire accessBefore securityBefore =>
    cases change with
    | delete => simp [Change.op]
    | _ => cases hpaired
  | subject userId =>
    cases change with
    | erase other name =>
      obtain ⟨rfl, hname⟩ := hpaired
      exact erase_op_isSome hname h
    | _ => cases hpaired
  | pseudonymise before =>
    cases change with
    | pseudonymise =>
      simp only [Change.op]
      split
      · rename_i hsame
        exfalso
        have hagent := congrArg AccessEvent.userAgent hsame
        have hip := congrArg AccessEvent.ipAddress hsame
        simp only [pseudonymisedRow] at hagent hip
        unfold CandidateQuery.matches at h
        rw [← hagent, Bool.and_eq_true, Bool.or_eq_true, Option.isSome_none] at h
        obtain ⟨ip, hcurrent, hplain⟩ := Option.any_eq_true _ _ |>.mp (h.2.resolve_left (by simp))
        rw [hcurrent, Option.bind_some] at hip
        -- an address without a slash is cut or dropped
        split at hip
        · rename_i hcut
          rcases hcut with hcut | hslash
          · exact hcut (Option.some.inj hip)
          · rw [hslash] at hplain
            cases hplain
        · cases hip
      · simp
    | _ => cases hpaired

/-- Each batch has something to do, and a rewrite that returned a number found nothing
more. -/
def Settled (current : Rewrite) (s : Rewriting) : Prop :=
  match s.progress with
  | .running _ _ phase => Busy phase
  | .returned (some _) => NoneLeft current s.trail.events
  | .returned none => True

theorem settled_access (hpaired : Paired current.query current.change)
    (hbudget : current.budget = none) {answer : Answer} {phase : BatchPhase} {trail : Trail}
    (h : Busy phase) (hrefused : refused lib policy answer phase trail = false)
    (changed conflicts committed abandoned : ℕ) :
    Settled current
      ⟨(rewriteStep lib truncateIp policy trail current [] changed conflicts phase).1,
        progressOf changed
          (rewriteStep lib truncateIp policy trail current [] changed conflicts phase).2,
        committed, abandoned⟩ := by
  cases phase with
  | ready =>
    simp only [rewriteStep, hbudget, Option.any_none, Bool.false_eq_true, if_false]
    trivial
  | windowsRead w =>
    have hplanned := planned_planRows truncateIp policy.sealing.isSome w current.change
      (candidates trail.events current.query current.createdBefore batchSize)
    simp only [rewriteStep]
    split
    · rename_i hrows
      have hlimit : 0 < batchSize := by decide
      exact not_matches_of_candidates_nil hlimit (List.isEmpty_iff.mp hrows)
    · rename_i hrows
      split
      · rename_i hloose
        refine ⟨.inr (hplanned.groups_ne_nil ?_ ?_ (List.isEmpty_iff.mp hloose)),
          hplanned.nonempty⟩
        · exact fun hnil => hrows (List.isEmpty_iff.mpr hnil)
        · exact fun row hrow => paired_op hpaired (matches_of_candidates hrow)
      · rename_i hloose
        exact ⟨fun hnil => hloose (List.isEmpty_iff.mpr hnil), hplanned.nonempty⟩
  | loose head ops groups =>
    obtain ⟨trail', htrail⟩ := apply_of_not_refused hrefused rfl
    simp only [rewriteStep, htrail]
    exact ⟨.inl (List.length_pos_iff.mpr h.1), h.2⟩
  | grouped head done groups =>
    cases groups with
    | nil =>
      have hdone : done ≠ 0 := by
        rcases h.1 with hpos | hnil
        · exact hpos.ne'
        · exact absurd rfl hnil
      simp only [rewriteStep, if_neg hdone]
      trivial
    | cons g groups =>
      exact ⟨h.2 g List.mem_cons_self, fun x hx => h.2 x (List.mem_cons_of_mem g hx)⟩
  | built head done record ops groups =>
    obtain ⟨trail', htrail⟩ := apply_of_not_refused hrefused rfl
    simp only [rewriteStep, htrail]
    have hpos := List.length_pos_iff.mpr h.1
    exact ⟨.inl (Nat.add_pos_right done hpos), h.2⟩

theorem settled_step (hpaired : Paired current.query current.change)
    (hbudget : current.budget = none) (h : Settled current s) {e : Event} (halone : Alone e) :
    Settled current (step lib truncateIp policy current s e) := by
  cases e with
  | others store => cases halone
  | access answer =>
    unfold step
    cases hprogress : s.progress with
    | returned result => exact h
    | running changed conflicts phase =>
      have hbusy : Busy phase := by
        unfold Settled at h
        rwa [hprogress] at h
      dsimp only
      split
      · trivial
      · split
        · unfold Settled
          dsimp only
          rcases progressOf_retry current changed conflicts with hend | hagain
          · rw [hend]
            trivial
          · rw [hagain]
            trivial
        · rename_i hrefused
          exact settled_access hpaired hbudget hbusy (Bool.eq_false_iff.mpr hrefused) changed
            conflicts _ _

end Leftovers

section Runs
variable (lib : Libraries) (truncateIp : String → String) (policy : AuditPolicy)
  (current : Rewrite)

theorem distinct_start (store : Store) : Distinct (.start store) where
  rows := store.unique
  ops _ _ _ h := by
    cases h
    exact List.nodup_nil

theorem eachFound_of_alone (store : Store) (events : List Event) (halone : ∀ e ∈ events, Alone e) :
    Guarded (step lib truncateIp policy current) (EachFound lib policy) (.start store) events := by
  have hpresent : Present (.start store) := by
    intro _ _ _ hrunning id hid
    cases hrunning
    cases hid
  exact guarded_of_inv (fun _ e => Alone e) (EachFound lib policy)
    (fun s => Distinct s ∧ Present s)
    (fun _ e h he => ⟨distinct_step h.1 e, present_step h.1 h.2 he⟩)
    (fun _ e h _ => eachFound_of_present h.2 e) (.start store) events
    ⟨distinct_start store, hpresent⟩ (guarded_of_forall Alone _ events halone)

theorem result_eq_some {progress : Progress} {n : ℕ} (h : progress.result = some n) :
    progress = .returned (some n) := by
  cases progress with
  | running => cases h
  | returned result =>
    obtain rfl : result = some n := h
    rfl

/-- What a rewrite that returns the number `n` has done. -/
structure Reported (store : Store) (events : List Event) (n : ℕ) : Prop where
  counted : Guarded (step lib truncateIp policy current) (EachFound lib policy) (.start store)
      events →
    ((run (step lib truncateIp policy current) (.start store) events).committed = n ↔
      Guarded (step lib truncateIp policy current) (NoLateConflict lib policy) (.start store)
        events)
  found : (∀ e ∈ events, Alone e) →
    Guarded (step lib truncateIp policy current) (EachFound lib policy) (.start store) events
  noneLeft : (∀ e ∈ events, Alone e) → Paired current.query current.change →
    current.budget = none →
    NoneLeft current (run (step lib truncateIp policy current) (.start store) events).trail.events

/-- A rewrite that returns a number has changed that many rows exactly when no batch of it met
a conflict after a commit. Alone and without a budget it has left no row. -/
theorem rewrite_reports (store : Store) (events : List Event) (n : ℕ)
    (h : (run (step lib truncateIp policy current) (.start store) events).progress.result =
      some n) : Reported lib truncateIp policy current store events n where
  counted hfound := by
    obtain ⟨-, haccounts⟩ : Distinct (run (step lib truncateIp policy current) (.start store) events) ∧
        Accounts (run (step lib truncateIp policy current) (.start store) events) :=
      run_keeps (EachFound lib policy) (fun s => Distinct s ∧ Accounts s)
        (fun s e hs he => ⟨distinct_step hs.1 e, accounts_step hs.1 hs.2 he⟩) (.start store) events
        ⟨distinct_start store, rfl⟩ hfound
    unfold Accounts at haccounts
    rw [result_eq_some h] at haccounts
    have habandoned : (run (step lib truncateIp policy current) (.start store) events).abandoned =
        0 ↔ (Rewriting.start store).abandoned = 0 ∧ Guarded (step lib truncateIp policy current)
          (NoLateConflict lib policy) (.start store) events :=
      run_keeps_iff (NoLateConflict lib policy) (fun _ => True) (fun s => s.abandoned = 0)
        (fun _ _ _ => trivial) (fun _ e _ => abandoned_step_iff e) (.start store) events trivial
    refine Iff.trans ?_ (habandoned.trans (and_iff_right rfl))
    dsimp only at haccounts
    rw [← haccounts]
    exact Nat.add_eq_left
  found := eachFound_of_alone lib truncateIp policy current store events
  noneLeft halone hpaired hbudget := by
    have hguard : Guarded (step lib truncateIp policy current) (fun _ e => Alone e)
        (.start store) events := guarded_of_forall Alone _ events halone
    have hsettled := run_keeps (fun _ e => Alone e) (Settled current)
      (fun s e hs he => settled_step hpaired hbudget hs he) (.start store) events trivial hguard
    unfold Settled at hsettled
    rw [result_eq_some h] at hsettled
    exact hsettled

end Runs

section LateConflict

/-- A row in the minute after the sealed one. -/
def laterRow : AccessEvent :=
  { sampleRow with id := "later", timestamp := sampleStart + 90000000000 }

def twoRows : Store where
  events := [sampleRow, laterRow]
  seals := [nextRecord sampleLib none .seal (sampleStart, sampleStart + 60000000000) [sampleRow] 0]
  unique := by decide

/-- A purge of everything. -/
def expireAll : Rewrite where
  query := .expire (some (sampleStart + 120000000000)) (some (sampleStart + 120000000000))
  createdBefore := none
  change := .delete
  budget := none

abbrev expireStep : Rewriting → Event → Rewriting :=
  step sampleLib (fun ip => ip) samplePolicy expireAll

/-- Twelve accesses, the fifth of them a commit that is answered with a conflict. -/
def lateConflict : List Event :=
  List.replicate 4 (.access .asIs) ++ .access .conflict :: List.replicate 7 (.access .asIs)

theorem lateConflict_run :
    (run expireStep (.start twoRows) lateConflict).progress.result = some 1 ∧
      (run expireStep (.start twoRows) lateConflict).committed = 2 := by
  decide +kernel

/-- The row that was deleted before the conflict is in no number. -/
theorem a_conflict_hides_a_commit :
    ¬ ∀ n, (run expireStep (.start twoRows) lateConflict).progress.result = some n →
      (run expireStep (.start twoRows) lateConflict).committed = n := by
  intro h
  have hone := h 1 lateConflict_run.1
  rw [lateConflict_run.2] at hone
  cases hone

end LateConflict

theorem late_conflict_reported :
    (run expireStep (.start twoRows) lateConflict).progress.result = some 1 ∧
      Reported sampleLib (fun ip => ip) samplePolicy expireAll twoRows lateConflict 1 :=
  ⟨lateConflict_run.1, rewrite_reports sampleLib (fun ip => ip) samplePolicy expireAll twoRows
    lateConflict 1 lateConflict_run.1⟩

end BatleHub.RewriteCounts
