import BatleHub.SealChain

/-!
The store of the audit trail (`in_memory/audit_trail.rs`): the rows and the seal records.
A batch of row changes is applied in one piece, together with the record that describes
it, if the chain's head is where the batch expects it and the window's rows are those the
record was built on.
-/
namespace BatleHub.AuditStore

open LocalPackages AuditEvents SealChain Lib.Intervals Lib.Texts

inductive CandidateQuery where
  | pseudonymise (before : DateTime)
  | expire (accessBefore securityBefore : Option DateTime)
  | subject (userId : String)
  deriving DecidableEq, Repr

/-- One change to one row, matched on its id. -/
inductive RowOp where
  | replace (row : AccessEvent)
  | delete (id : String)
  deriving DecidableEq, Repr

def RowOp.id : RowOp → String
  | .replace row => row.id
  | .delete id => id

structure TrailBatch where
  ops : List RowOp
  record : Option SealRecord
  expectHead : Option ℤ

structure Trail where
  events : List AccessEvent
  seals : List SealRecord

section Subjects

/-- The text before a subject's id in the details that name one. -/
def subjectLead : AccessAction → Option String
  | .gdprExport => some "subject="
  | .grantWrite | .grantRevoke => some "subject=user:"
  | _ => none

def subjectPrefix (action : AccessAction) (userId : String) : Option String :=
  (subjectLead action).map fun lead => lead ++ userId

def detailNamesSubject (action : AccessAction) (detail userId : String) : Bool :=
  (subjectPrefix action userId).any fun lead =>
    (stripPrefix detail lead).any fun rest => decide (rest = "") || startsWith rest " "

/-- The row names the user, as its actor or as its subject. -/
def namesUser (userId : String) (e : AccessEvent) : Bool :=
  decide (e.userId = some userId) ||
    e.detail.any fun detail => detailNamesSubject e.action detail userId

end Subjects

def CandidateQuery.matches (e : AccessEvent) : CandidateQuery → Bool
  | .pseudonymise before =>
    e.action.isAccessClass && decide (e.timestamp < before) &&
      (e.userAgent.isSome || e.ipAddress.any fun ip => !ip.toList.contains '/')
  | .expire accessBefore securityBefore =>
    (if e.action.isAccessClass then accessBefore else securityBefore).any fun cutoff =>
      decide (e.timestamp < cutoff)
  | .subject userId => namesUser userId e

/-- The order of a window's rows: by time, then by id. -/
def rowOrder (a b : AccessEvent) : Prop :=
  a.timestamp < b.timestamp ∨ (a.timestamp = b.timestamp ∧ a.id ≤ b.id)

instance : DecidableRel rowOrder := fun _ _ => inferInstanceAs (Decidable (_ ∨ _))

def rowsIn (events : List AccessEvent) (start stop : DateTime) : List AccessEvent :=
  (events.filter fun e => decide (Holds (start, stop) e.timestamp)).insertionSort rowOrder

def candidates (events : List AccessEvent) (query : CandidateQuery)
    (createdBefore : Option DateTime) (limit : ℕ) : List AccessEvent :=
  ((events.filter fun e => (createdBefore.all fun b => decide (e.timestamp < b)) &&
    query.matches e).insertionSort fun a b => a.timestamp ≤ b.timestamp).take limit

/-- The columns a replacement writes. -/
def copyMutable (new e : AccessEvent) : AccessEvent :=
  { e with
    userId := new.userId
    ipAddress := new.ipAddress
    userAgent := new.userAgent
    detail := new.detail }

/-- Replace the first row of that id. -/
def replaceFirst (new : AccessEvent) : List AccessEvent → List AccessEvent
  | [] => []
  | e :: rest => if e.id = new.id then copyMutable new e :: rest else e :: replaceFirst new rest

def RowOp.stage : RowOp → List AccessEvent → List AccessEvent
  | .delete id, events => events.filter fun e => decide (e.id ≠ id)
  | .replace new, events => replaceFirst new events

def stageAll (ops : List RowOp) (events : List AccessEvent) : List AccessEvent :=
  ops.foldl (fun staged op => op.stage staged) events

/-- `AuditTrailStore::apply`: all or nothing. -/
def apply (lib : Libraries) (batch : TrailBatch) (trail : Trail) : Except CoreError Trail :=
  let head := headSeq trail.seals.getLast?
  match batch.expectHead.filter fun want => decide (want ≠ head) with
  | some want =>
    .error (.conflict ("the seal chain moved: head is " ++ toString head ++
      ", the batch was built on Some(" ++ toString want ++ ")"))
  | none =>
    let staged := stageAll batch.ops trail.events
    match batch.record with
    | none => .ok { trail with events := staged }
    | some record =>
      if rowsDigest lib (rowsIn staged record.windowStart record.windowEnd) ≠ record.rowsDigest then
        .error (.conflict "the window's rows changed since the record was built")
      else .ok ⟨staged, trail.seals ++ [record]⟩

theorem matches_of_candidates {events : List AccessEvent} {query : CandidateQuery}
    {createdBefore : Option DateTime} {limit : ℕ} {e : AccessEvent}
    (h : e ∈ candidates events query createdBefore limit) : query.matches e = true := by
  have hsorted := List.mem_of_mem_take h
  rw [List.mem_insertionSort, List.mem_filter, Bool.and_eq_true] at hsorted
  exact hsorted.2.2

/-- Where a query finds nothing, no row within the bound matches it. -/
theorem not_matches_of_candidates_nil {events : List AccessEvent} {query : CandidateQuery}
    {createdBefore : Option DateTime} {limit : ℕ} (hlimit : 0 < limit)
    (h : candidates events query createdBefore limit = []) :
    ∀ e ∈ events, (∀ b, createdBefore = some b → e.timestamp < b) → query.matches e = false := by
  intro e he hbound
  by_contra hmatches
  rw [Bool.not_eq_false] at hmatches
  rcases List.take_eq_nil_iff.mp h with hzero | hnil
  · omega
  · have hmem : e ∈ events.filter fun e =>
        (createdBefore.all fun b => decide (e.timestamp < b)) && query.matches e := by
      rw [List.mem_filter, hmatches, Bool.and_true, Option.all_eq_true]
      exact ⟨he, fun b hb => decide_eq_true (hbound b hb)⟩
    exact List.not_mem_nil (hnil ▸ (List.mem_insertionSort _).mpr hmem)

/-- What a successful batch has done. -/
theorem apply_eq_ok {lib : Libraries} {batch : TrailBatch} {trail trail' : Trail}
    (h : apply lib batch trail = .ok trail') :
    (∀ want, batch.expectHead = some want → want = headSeq trail.seals.getLast?) ∧
      trail'.events = stageAll batch.ops trail.events ∧
      (batch.record = none → trail'.seals = trail.seals) ∧
      ∀ r, batch.record = some r → trail'.seals = trail.seals ++ [r] ∧
        rowsDigest lib (rowsIn trail'.events r.windowStart r.windowEnd) = r.rowsDigest := by
  unfold apply at h
  cases hhead : batch.expectHead.filter fun want =>
      decide (want ≠ headSeq trail.seals.getLast?) with
  | some want => simp only [hhead, reduceCtorEq] at h
  | none =>
    have hwant : ∀ want, batch.expectHead = some want → want = headSeq trail.seals.getLast? := by
      intro want hexpect
      rw [hexpect] at hhead
      by_contra hne
      simp [hne] at hhead
    simp only [hhead] at h
    cases hrecord : batch.record with
    | none =>
      simp only [hrecord, Except.ok.injEq] at h
      subst h
      exact ⟨hwant, rfl, fun _ => rfl, by simp⟩
    | some record =>
      simp only [hrecord] at h
      split at h
      · simp at h
      · rename_i hdigest
        simp only [Except.ok.injEq] at h
        subst h
        refine ⟨hwant, rfl, by simp, ?_⟩
        intro r hr
        obtain rfl := Option.some.inj hr
        exact ⟨rfl, not_not.mp hdigest⟩

/-- A batch with its record, on the head it expects and with the rows the record describes. -/
theorem apply_record (lib : Libraries) (ops : List RowOp) (r : SealRecord) (trail : Trail)
    (h : rowsDigest lib (rowsIn (stageAll ops trail.events) r.windowStart r.windowEnd) =
      r.rowsDigest) :
    apply lib ⟨ops, some r, some (headSeq trail.seals.getLast?)⟩ trail =
      .ok ⟨stageAll ops trail.events, trail.seals ++ [r]⟩ := by
  unfold apply
  simp [h, Option.filter_some]

section Staging

@[simp]
theorem copyMutable_id (new e : AccessEvent) : (copyMutable new e).id = e.id := rfl

@[simp]
theorem copyMutable_timestamp (new e : AccessEvent) :
    (copyMutable new e).timestamp = e.timestamp := rfl

@[simp]
theorem copyMutable_action (new e : AccessEvent) : (copyMutable new e).action = e.action := rfl

theorem copyMutable_copyMutable (new old e : AccessEvent) :
    copyMutable new (copyMutable old e) = copyMutable new e := rfl

theorem mem_replaceFirst {new e : AccessEvent} {events : List AccessEvent}
    (h : e ∈ replaceFirst new events) :
    e ∈ events ∨ ∃ old ∈ events, old.id = new.id ∧ e = copyMutable new old := by
  induction events with
  | nil => exact .inl h
  | cons x rest ih =>
    rw [replaceFirst] at h
    split at h
    · rename_i hid
      rcases List.mem_cons.mp h with hnew | hold
      · exact .inr ⟨x, List.mem_cons_self, hid, hnew⟩
      · exact .inl (List.mem_cons_of_mem x hold)
    · rcases List.mem_cons.mp h with hx | hrest
      · exact .inl (hx ▸ List.mem_cons_self)
      · rcases ih hrest with hold | ⟨old, hold, hid, heq⟩
        · exact .inl (List.mem_cons_of_mem x hold)
        · exact .inr ⟨old, List.mem_cons_of_mem x hold, hid, heq⟩

theorem mem_stage {op : RowOp} {e : AccessEvent} {events : List AccessEvent}
    (h : e ∈ op.stage events) :
    e ∈ events ∨ ∃ new, op = .replace new ∧ ∃ old ∈ events, old.id = new.id ∧
      e = copyMutable new old := by
  cases op with
  | delete id => exact .inl (List.mem_of_mem_filter h)
  | replace new =>
    rcases mem_replaceFirst h with hold | hnew
    · exact .inl hold
    · exact .inr ⟨new, rfl, hnew⟩

/-- A row after a batch is a row from before it, or one whose mutable columns the batch
wrote. -/
theorem mem_stageAll {ops : List RowOp} {e : AccessEvent} {events : List AccessEvent}
    (h : e ∈ stageAll ops events) :
    e ∈ events ∨ ∃ new, RowOp.replace new ∈ ops ∧ ∃ old ∈ events, old.id = new.id ∧
      e = copyMutable new old := by
  induction ops generalizing events with
  | nil => exact .inl h
  | cons op ops ih =>
    rcases ih h with hstaged | ⟨new, hnew, old, hold, hid, heq⟩
    · rcases mem_stage hstaged with hsame | ⟨new, rfl, old, hold, hid, heq⟩
      · exact .inl hsame
      · exact .inr ⟨new, List.mem_cons_self, old, hold, hid, heq⟩
    · refine .inr ⟨new, List.mem_cons_of_mem op hnew, ?_⟩
      rcases mem_stage hold with hsame | ⟨first, -, older, holder, hfirst, rfl⟩
      · exact ⟨old, hsame, hid, heq⟩
      · refine ⟨older, holder, hid, ?_⟩
        rw [heq, copyMutable_copyMutable]

theorem exists_of_mem_stageAll {ops : List RowOp} {e : AccessEvent} {events : List AccessEvent}
    (h : e ∈ stageAll ops events) :
    ∃ old ∈ events, old.id = e.id ∧ old.timestamp = e.timestamp ∧ old.action = e.action := by
  rcases mem_stageAll h with hsame | ⟨new, -, old, hold, -, rfl⟩
  · exact ⟨e, hsame, rfl, rfl, rfl⟩
  · exact ⟨old, hold, rfl, rfl, rfl⟩

theorem ids_replaceFirst (new : AccessEvent) (events : List AccessEvent) :
    (replaceFirst new events).map (·.id) = events.map (·.id) := by
  induction events with
  | nil => rfl
  | cons x rest ih =>
    rw [replaceFirst]
    split
    · rfl
    · rw [List.map_cons, List.map_cons, ih]

theorem ids_stageAll_sublist (ops : List RowOp) (events : List AccessEvent) :
    ((stageAll ops events).map (·.id)).Sublist (events.map (·.id)) := by
  induction ops generalizing events with
  | nil => exact List.Sublist.refl _
  | cons op ops ih =>
    refine (ih (op.stage events)).trans ?_
    cases op with
    | delete id => exact List.filter_sublist.map _
    | replace new => exact ids_replaceFirst new events ▸ List.Sublist.refl _

/-- A row that no operation names stays. -/
theorem id_mem_stageAll {ops : List RowOp} {events : List AccessEvent} {id : String}
    (h : id ∈ events.map (·.id)) (hops : id ∉ ops.map RowOp.id) :
    id ∈ (stageAll ops events).map (·.id) := by
  induction ops generalizing events with
  | nil => exact h
  | cons op ops ih =>
    rw [List.map_cons, List.mem_cons, not_or] at hops
    refine ih ?_ hops.2
    cases op with
    | replace new => exact ids_replaceFirst new events ▸ h
    | delete deleted =>
      obtain ⟨e, he, rfl⟩ := List.mem_map.mp h
      exact List.mem_map_of_mem (List.mem_filter.mpr ⟨he, decide_eq_true hops.1⟩)

theorem filter_replaceFirst {new : AccessEvent} {events : List AccessEvent} {window : Window}
    (h : ∀ e ∈ events, e.id = new.id → ¬ Holds window e.timestamp) :
    (replaceFirst new events).filter (fun e => decide (Holds window e.timestamp)) =
      events.filter fun e => decide (Holds window e.timestamp) := by
  induction events with
  | nil => rfl
  | cons x rest ih =>
    rw [replaceFirst]
    split
    · rename_i hid
      have hx := h x List.mem_cons_self hid
      rw [List.filter_cons_of_neg (by simp [hx]), List.filter_cons_of_neg (by simp [hx])]
    · have hrest := ih fun e he => h e (List.mem_cons_of_mem x he)
      rw [List.filter_cons, List.filter_cons, hrest]

theorem filter_stage {op : RowOp} {events : List AccessEvent} {window : Window}
    (h : ∀ e ∈ events, e.id = op.id → ¬ Holds window e.timestamp) :
    (op.stage events).filter (fun e => decide (Holds window e.timestamp)) =
      events.filter fun e => decide (Holds window e.timestamp) := by
  cases op with
  | replace new => exact filter_replaceFirst h
  | delete id =>
    rw [RowOp.stage, List.filter_filter]
    refine List.filter_congr ?_
    intro e he
    by_cases hin : Holds window e.timestamp
    · have hne : e.id ≠ id := fun hid => h e he hid hin
      simp [hin, hne]
    · simp [hin]

/-- A batch that names no row of a window leaves the window as it was. -/
theorem rowsIn_stageAll {ops : List RowOp} {events : List AccessEvent} {window : Window}
    (h : ∀ op ∈ ops, ∀ e ∈ events, e.id = op.id → ¬ Holds window e.timestamp) :
    rowsIn (stageAll ops events) window.1 window.2 = rowsIn events window.1 window.2 := by
  unfold rowsIn
  congr 1
  induction ops generalizing events with
  | nil => rfl
  | cons op ops ih =>
    have hop := h op List.mem_cons_self
    have hrest : ∀ op' ∈ ops, ∀ e ∈ op.stage events, e.id = op'.id → ¬ Holds window e.timestamp := by
      intro op' hop' e he hid
      have hone : e ∈ stageAll [op] events := he
      obtain ⟨old, hold, holdid, hts, -⟩ := exists_of_mem_stageAll hone
      rw [← hts]
      exact h op' (List.mem_cons_of_mem op hop') old hold (holdid.trans hid)
    have hstaged := ih hrest
    exact hstaged.trans (filter_stage hop)

end Staging

end BatleHub.AuditStore
