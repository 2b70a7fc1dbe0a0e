import BatleHub.Verdicts
import Mathlib.Data.List.Sort
import Mathlib.Data.Prod.Lex

/-!
The in-memory queue of scan jobs (`entities/security.rs`, `in_memory/security.rs`). Workers
lease open jobs by priority and age, with one slot of each batch kept for the lowest tier.
Every operation after the lease names the job only.
-/
namespace BatleHub.ScanQueue

open LocalPackages Verdicts

section Picks

variable {T P A : Type*} [LinearOrder P] [LinearOrder A] (priority : T → P) (created : T → A)

/-- The last of the greatest: the lowest tier, and in it the oldest. -/
def lowestTier : List T → Option T
  | [] => none
  | x :: rest => some (rest.foldl
      (fun best y =>
        if priority best < priority y ∨ priority best = priority y ∧ created y ≤ created best
        then y else best) x)

/-- Up to `n` of the sorted ones: all but one from the front, then the oldest of the lowest
tier. -/
def starvationPick (sorted : List T) (n : ℕ) : List T :=
  if n ≤ 1 ∨ sorted.length ≤ n then sorted.take n
  else sorted.take (n - 1) ++ (lowestTier priority created (sorted.drop (n - 1))).toList

theorem foldl_choice_mem (choose : T → T → T) (hchoose : ∀ x y, choose x y = x ∨ choose x y = y)
    (x : T) (l : List T) : l.foldl choose x ∈ x :: l := by
  induction l generalizing x with
  | nil => exact List.mem_singleton_self x
  | cons y rest ih =>
    rw [List.foldl_cons]
    rcases List.mem_cons.mp (ih (choose x y)) with hhead | hrest
    · rw [hhead]
      rcases hchoose x y with h | h <;> simp [h]
    · exact List.mem_cons_of_mem _ (List.mem_cons_of_mem _ hrest)

theorem mem_of_lowestTier {l : List T} {x : T} (h : lowestTier priority created l = some x) :
    x ∈ l := by
  cases l with
  | nil => cases h
  | cons y rest =>
    obtain rfl := Option.some.inj h
    refine foldl_choice_mem _ (fun best z => ?_) y rest
    split
    · exact .inr rfl
    · exact .inl rfl

theorem mem_of_starvationPick {sorted : List T} {n : ℕ} {x : T}
    (h : x ∈ starvationPick priority created sorted n) : x ∈ sorted := by
  unfold starvationPick at h
  split at h
  · exact List.mem_of_mem_take h
  · rcases List.mem_append.mp h with hfront | hlast
    · exact List.mem_of_mem_take hfront
    · exact List.mem_of_mem_drop
        (mem_of_lowestTier priority created (Option.mem_toList.mp hlast))

theorem nodup_starvationPick {sorted : List T} (hnodup : sorted.Nodup) (n : ℕ) :
    (starvationPick priority created sorted n).Nodup := by
  unfold starvationPick
  split
  · exact hnodup.sublist (List.take_sublist n sorted)
  · rw [List.nodup_append']
    refine ⟨hnodup.sublist (List.take_sublist _ sorted), ?_, fun x hfront hlast => ?_⟩
    · cases lowestTier priority created (sorted.drop (n - 1)) with
      | none => exact List.nodup_nil
      | some x => exact List.nodup_singleton x
    · have hrest := mem_of_lowestTier priority created (Option.mem_toList.mp hlast)
      exact List.disjoint_take_drop hnodup (Nat.le_refl _) hfront hrest

end Picks

/-- Why a scan job exists. -/
inductive ScanTrigger where
  | firstSeen
  | webhook
  | rescan
  | backfill
  deriving DecidableEq, Repr

/-- Lower is dequeued first. -/
def ScanTrigger.priority : ScanTrigger → ℕ
  | firstSeen => 0
  | webhook => 1
  | rescan => 2
  | backfill => 3

structure ScanJob where
  id : ℕ
  package : PackageId
  publishedAt : Option DateTime
  artifactSha256 : Option String
  trigger : ScanTrigger
  attempts : ℕ
  leasedUntil : Option DateTime
  createdAt : DateTime
  deriving DecidableEq, Repr

structure Row where
  job : ScanJob
  leasedBy : Option String
  completed : Bool
  lastError : Option String
  deriving DecidableEq, Repr

/-- A change of the rows it selects; a row keeps its id. -/
structure RowEdit where
  selects : Row → Bool
  change : Row → Row
  kept : ∀ r, (change r).job.id = r.job.id

/-- The rows in the order they came. Rows stay, so their number is a fresh id. -/
structure InMemoryScanQueue where
  rows : List Row
  ids : rows.map (·.job.id) = List.range rows.length

/-- `now` and the seconds of a lease, which the code reads as an `i64`. -/
def leaseEnd (now : DateTime) (leaseSecs : UInt64) : DateTime :=
  now + leaseSecs.toInt64.toInt * nanosPerSecond

namespace InMemoryScanQueue

def empty : InMemoryScanQueue := ⟨[], rfl⟩

theorem nodup_ids (q : InMemoryScanQueue) : (q.rows.map (·.job.id)).Nodup :=
  q.ids ▸ List.nodup_range

theorem row_unique {q : InMemoryScanQueue} {r r' : Row} (hr : r ∈ q.rows) (hr' : r' ∈ q.rows)
    (h : r.job.id = r'.job.id) : r = r' :=
  List.inj_on_of_nodup_map q.nodup_ids hr hr' h

theorem id_lt_length {q : InMemoryScanQueue} {r : Row} (h : r ∈ q.rows) :
    r.job.id < q.rows.length := by
  have hid := List.mem_map_of_mem (f := fun r : Row => r.job.id) h
  rw [q.ids] at hid
  exact List.mem_range.mp hid

def edit (q : InMemoryScanQueue) (e : RowEdit) : InMemoryScanQueue where
  rows := q.rows.map fun r => if e.selects r then e.change r else r
  ids := by
    rw [List.map_map, List.length_map, ← q.ids]
    apply List.map_congr_left
    intro r _
    rw [Function.comp_apply]
    split
    · exact e.kept r
    · rfl

def isOpen (q : InMemoryScanQueue) (id : ℕ) : Bool :=
  q.rows.any fun r => decide (r.job.id = id) && !r.completed

/-- The new row, unless the package has an open one. -/
def enqueue (q : InMemoryScanQueue) (now : DateTime) (package : PackageId)
    (publishedAt : Option DateTime) (trigger : ScanTrigger) : InMemoryScanQueue × Bool :=
  if q.rows.any fun r => !r.completed && decide (r.job.package = package) then (q, false)
  else
    ({ rows := q.rows ++
        [⟨⟨q.rows.length, package, publishedAt, none, trigger, 0, none, now⟩, none, false, none⟩]
       ids := by rw [List.map_append, q.ids, List.length_append]; exact List.range_succ.symm },
      true)

/-- Open, not leased, with attempts left, and of a registry the worker serves. -/
def isCandidate (now : DateTime) (registries : List String) (maxAttempts : ℕ) (r : Row) : Bool :=
  !r.completed && r.job.leasedUntil.all (fun u => decide (u < now)) &&
    decide (r.job.attempts < maxAttempts) &&
    (registries.isEmpty || decide (r.job.package.registry ∈ registries))

def picked (q : InMemoryScanQueue) (now : DateTime) (registries : List String) (n : ℕ)
    (maxAttempts : ℕ) : List Row :=
  let candidates := (q.rows.filter (isCandidate now registries maxAttempts)).insertionSort
    fun a b => toLex (a.job.trigger.priority, a.job.createdAt) ≤
      toLex (b.job.trigger.priority, b.job.createdAt)
  starvationPick (fun r : Row => r.job.trigger.priority) (fun r => r.job.createdAt) candidates n

def handOut (workerId : String) (deadline : DateTime) (r : Row) : Row :=
  { r with
    job := { r.job with attempts := r.job.attempts + 1, leasedUntil := some deadline }
    leasedBy := some workerId }

def leaseEdit (now : DateTime) (workerId : String) (leaseSecs : UInt64) (rows : List Row) :
    RowEdit where
  selects r := decide (r ∈ rows)
  change := handOut workerId (leaseEnd now leaseSecs)
  kept _ := rfl

def lease (q : InMemoryScanQueue) (now : DateTime) (workerId : String) (registries : List String)
    (n : ℕ) (leaseSecs : UInt64) (maxAttempts : ℕ) : InMemoryScanQueue × List ScanJob :=
  let rows := q.picked now registries n maxAttempts
  (q.edit (leaseEdit now workerId leaseSecs rows),
    rows.map fun r => (handOut workerId (leaseEnd now leaseSecs) r).job)

def heartbeatEdit (now : DateTime) (jobId : ℕ) (leaseSecs : UInt64) : RowEdit where
  selects r := decide (r.job.id = jobId) && !r.completed
  change r := { r with job := { r.job with leasedUntil := some (leaseEnd now leaseSecs) } }
  kept _ := rfl

def heartbeat (q : InMemoryScanQueue) (now : DateTime) (jobId : ℕ) (leaseSecs : UInt64) :
    InMemoryScanQueue := q.edit (heartbeatEdit now jobId leaseSecs)

def completeEdit (jobId : ℕ) : RowEdit where
  selects r := decide (r.job.id = jobId)
  change r := { r with completed := true, job := { r.job with leasedUntil := none } }
  kept _ := rfl

def complete (q : InMemoryScanQueue) (jobId : ℕ) : InMemoryScanQueue := q.edit (completeEdit jobId)

def failEdit (jobId : ℕ) (error : String) : RowEdit where
  selects r := decide (r.job.id = jobId) && !r.completed
  change r := { r with
    job := { r.job with leasedUntil := none }, leasedBy := none, lastError := some error }
  kept _ := rfl

def fail (q : InMemoryScanQueue) (jobId : ℕ) (error : String) : InMemoryScanQueue :=
  q.edit (failEdit jobId error)

/-- The packages that have an open job, once for each. -/
def openPackages (q : InMemoryScanQueue) : List PackageId :=
  (q.rows.filter fun r => !r.completed).map (·.job.package)

section Edits

variable {q : InMemoryScanQueue} {e : RowEdit}

theorem mem_edit {r' : Row} : r' ∈ (q.edit e).rows ↔
    ∃ r ∈ q.rows, (if e.selects r = true then e.change r else r) = r' :=
  List.mem_map

/-- The row a row of the edited queue was. -/
theorem mem_of_mem_edit {r' : Row} (h : r' ∈ (q.edit e).rows) :
    ∃ r ∈ q.rows, r.job.id = r'.job.id ∧
      (if e.selects r = true then e.change r else r) = r' := by
  obtain ⟨r, hr, rfl⟩ := mem_edit.mp h
  refine ⟨r, hr, ?_, rfl⟩
  split
  · exact (e.kept r).symm
  · rfl

theorem selected_mem_edit {r : Row} (h : r ∈ q.rows) (hselected : e.selects r = true) :
    e.change r ∈ (q.edit e).rows :=
  mem_edit.mpr ⟨r, h, if_pos hselected⟩

theorem unselected_mem_edit {r : Row} (h : r ∈ q.rows) (hselected : ¬ e.selects r = true) :
    r ∈ (q.edit e).rows :=
  mem_edit.mpr ⟨r, h, if_neg hselected⟩

theorem length_edit : (q.edit e).rows.length = q.rows.length := List.length_map _

theorem openPackages_edit (hpackage : ∀ r, (e.change r).job.package = r.job.package)
    (hclosed : ∀ r, r.completed = true → (e.change r).completed = true) :
    (q.edit e).openPackages.Sublist q.openPackages := by
  unfold openPackages edit
  dsimp only
  rw [List.filter_map, List.map_map]
  have hsame : ∀ r, (if e.selects r = true then e.change r else r).job.package =
      r.job.package := by
    intro r
    split
    · exact hpackage r
    · rfl
  rw [show (fun r : Row => r.job.package) ∘
    (fun r => if e.selects r = true then e.change r else r) = fun r => r.job.package from
      funext hsame]
  refine (List.monotone_filter_right q.rows fun r hopen => ?_).map _
  rw [Bool.not_eq_true']
  by_contra hcompleted
  rw [Bool.not_eq_false] at hcompleted
  rw [Function.comp_apply, Bool.not_eq_true'] at hopen
  split at hopen
  · exact Bool.false_ne_true (hopen.symm.trans (hclosed r hcompleted))
  · exact Bool.false_ne_true (hopen.symm.trans hcompleted)

end Edits

theorem isOpen_iff {q : InMemoryScanQueue} {id : ℕ} :
    q.isOpen id = true ↔ ∃ r ∈ q.rows, r.job.id = id ∧ r.completed = false := by
  simp [isOpen]

theorem isCandidate_iff {now : DateTime} {registries : List String} {maxAttempts : ℕ} {r : Row} :
    isCandidate now registries maxAttempts r = true ↔
      r.completed = false ∧ (∀ u, r.job.leasedUntil = some u → u < now) ∧
        r.job.attempts < maxAttempts ∧
        (registries = [] ∨ r.job.package.registry ∈ registries) := by
  simp [isCandidate, Option.all_eq_true, and_assoc]

theorem mem_picked {q : InMemoryScanQueue} {now : DateTime} {registries : List String}
    {n maxAttempts : ℕ} {r : Row} (h : r ∈ q.picked now registries n maxAttempts) :
    r ∈ q.rows ∧ isCandidate now registries maxAttempts r = true := by
  have hsorted := mem_of_starvationPick _ _ h
  exact List.mem_filter.mp ((List.mem_insertionSort _).mp hsorted)

theorem nodup_picked (q : InMemoryScanQueue) (now : DateTime) (registries : List String)
    (n maxAttempts : ℕ) : ((q.picked now registries n maxAttempts).map (·.job.id)).Nodup := by
  have hrows : (q.picked now registries n maxAttempts).Nodup := by
    refine nodup_starvationPick _ _ ((List.perm_insertionSort _ _).nodup_iff.mpr ?_) n
    exact (List.Nodup.of_map _ q.nodup_ids).filter _
  refine List.Nodup.map_on (fun r hr r' hr' hid => ?_) hrows
  exact row_unique (mem_picked hr).1 (mem_picked hr').1 hid

end InMemoryScanQueue

end BatleHub.ScanQueue
