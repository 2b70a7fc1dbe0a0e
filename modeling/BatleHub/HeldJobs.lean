import BatleHub.Lib.Runs
import BatleHub.ScanQueue

/-!
Any number of workers on one scan queue. Beside the queue stands what each worker may rely
on: the holder of a job, until a deadline that only its own heartbeats move and that its own
failure or completion ends. The queue takes a heartbeat, a failure or a completion from
anyone, so the holder can rely on it just as long as nobody else makes one on its job.
-/
namespace BatleHub.HeldJobs

open LocalPackages Verdicts ScanQueue Lib.Runs

/-- A worker's lease of a job, up to its deadline. -/
structure Hold where
  worker : String
  deadline : DateTime
  deriving DecidableEq, Repr

/-- A job as it was handed out, and who had it before. -/
structure HandOut where
  job : ℕ
  worker : String
  moment : DateTime
  maxAttempts : ℕ
  found : Option Hold
  deriving DecidableEq, Repr

structure Traffic where
  queue : InMemoryScanQueue
  now : DateTime
  holds : ℕ → Option Hold
  handOuts : List HandOut

def Traffic.start (now : DateTime) : Traffic := ⟨.empty, now, fun _ => none, []⟩

/-- A call on the queue, with the worker that makes it, or time that passes. -/
inductive Event where
  | enqueue (package : PackageId) (publishedAt : Option DateTime) (trigger : ScanTrigger)
  | lease (worker : String) (registries : List String) (n : ℕ) (leaseSecs : UInt64)
      (maxAttempts : ℕ)
  | heartbeat (worker : String) (job : ℕ) (leaseSecs : UInt64)
  | fail (worker : String) (job : ℕ) (error : String)
  | complete (worker : String) (job : ℕ)
  | tick (nanos : ℕ)

/-- A heartbeat moves the worker's own deadline. -/
def extendOwn (worker : String) (deadline : DateTime) (h : Hold) : Hold :=
  if h.worker = worker then { h with deadline := deadline } else h

def dropOwn (holds : ℕ → Option Hold) (worker : String) (job : ℕ) : ℕ → Option Hold :=
  fun id => if id = job then (holds id).filter fun h => decide (h.worker ≠ worker) else holds id

def step (t : Traffic) : Event → Traffic
  | .enqueue package publishedAt trigger =>
    { t with queue := (t.queue.enqueue t.now package publishedAt trigger).1 }
  | .lease worker registries n leaseSecs maxAttempts =>
    let leased := t.queue.lease t.now worker registries n leaseSecs maxAttempts
    { t with
      queue := leased.1
      holds := fun id =>
        if id ∈ leased.2.map (·.id) then some ⟨worker, leaseEnd t.now leaseSecs⟩ else t.holds id
      handOuts := t.handOuts ++
        leased.2.map fun job => ⟨job.id, worker, t.now, maxAttempts, t.holds job.id⟩ }
  | .heartbeat worker job leaseSecs =>
    { t with
      queue := t.queue.heartbeat t.now job leaseSecs
      holds := fun id =>
        if id = job ∧ t.queue.isOpen job = true then
          (t.holds id).map (extendOwn worker (leaseEnd t.now leaseSecs))
        else t.holds id }
  | .fail worker job error =>
    { t with queue := t.queue.fail job error, holds := dropOwn t.holds worker job }
  | .complete worker job =>
    { t with queue := t.queue.complete job, holds := dropOwn t.holds worker job }
  | .tick nanos => { t with now := t.now + nanos }

section Laws

/-- Each job was handed out fewer than the caller's `maxAttempts` times before. -/
def WithinAttempts (handOuts : List HandOut) : Prop :=
  ∀ before e after, handOuts = before ++ e :: after →
    before.countP (fun e' => decide (e'.job = e.job)) < e.maxAttempts

/-- A job that another worker had was handed out after that worker's deadline. -/
def Exclusive (handOuts : List HandOut) : Prop :=
  ∀ e ∈ handOuts, ∀ h, e.found = some h → h.worker ≠ e.worker → h.deadline < e.moment

/-- A job that is held is open and leased up to its holder's deadline. -/
def Intact (t : Traffic) : Prop :=
  ∀ id h, t.holds id = some h → t.now ≤ h.deadline →
    ∃ r ∈ t.queue.rows, r.job.id = id ∧ r.completed = false ∧
      r.job.leasedUntil = some h.deadline

/-- One open job for each package, no job handed out too often or to a second worker, and no
holder's lease moved by another. -/
structure Lawful (t : Traffic) : Prop where
  oneOpen : t.queue.openPackages.Nodup
  attempts : WithinAttempts t.handOuts
  exclusive : Exclusive t.handOuts
  intact : Intact t

/-- No heartbeat, failure or completion by one worker of a job that another one holds; a
heartbeat that leaves the deadline where it is makes no difference. -/
def Considerate (t : Traffic) : Event → Prop
  | .heartbeat worker job leaseSecs => ∀ h, t.holds job = some h → h.worker ≠ worker →
    t.now ≤ h.deadline → leaseEnd t.now leaseSecs = h.deadline
  | .fail worker job _ => ∀ h, t.holds job = some h → h.worker ≠ worker → h.deadline < t.now
  | .complete worker job => ∀ h, t.holds job = some h → h.worker ≠ worker → h.deadline < t.now
  | _ => True

end Laws

section OpenJobs

theorem openPackages_enqueue {q : InMemoryScanQueue} (h : q.openPackages.Nodup) (now : DateTime)
    (package : PackageId) (publishedAt : Option DateTime) (trigger : ScanTrigger) :
    (q.enqueue now package publishedAt trigger).1.openPackages.Nodup := by
  unfold InMemoryScanQueue.enqueue
  split
  · exact h
  · rename_i hfresh
    unfold InMemoryScanQueue.openPackages
    dsimp only
    rw [List.filter_append, List.map_append]
    refine List.Nodup.append h (List.nodup_singleton package) fun p hp hnew => hfresh ?_
    obtain rfl := List.mem_singleton.mp hnew
    obtain ⟨r, hr, rfl⟩ := List.mem_map.mp hp
    obtain ⟨hmem, hopen⟩ := List.mem_filter.mp hr
    exact List.any_eq_true.mpr ⟨r, hmem, by simpa using hopen⟩

/-- There is never a second open job for a package. -/
theorem oneOpen_step {t : Traffic} (h : t.queue.openPackages.Nodup) (e : Event) :
    (step t e).queue.openPackages.Nodup := by
  cases e with
  | enqueue package publishedAt trigger =>
    exact openPackages_enqueue h t.now package publishedAt trigger
  | lease | heartbeat | fail =>
    exact h.sublist
      (InMemoryScanQueue.openPackages_edit (fun _ => rfl) fun _ => id)
  | complete =>
    exact h.sublist
      (InMemoryScanQueue.openPackages_edit (fun _ => rfl) fun _ _ => rfl)
  | tick => exact h

end OpenJobs

section Attempts

/-- The attempts of a job are the times it was handed out. -/
structure Counted (t : Traffic) : Prop where
  attempts : ∀ r ∈ t.queue.rows,
    r.job.attempts = t.handOuts.countP fun e => decide (e.job = r.job.id)
  known : ∀ e ∈ t.handOuts, e.job < t.queue.rows.length

theorem Counted.of_edit {t : Traffic} (h : Counted t) {e : RowEdit} {holds : ℕ → Option Hold}
    (he : ∀ r, (e.change r).job.attempts = r.job.attempts) :
    Counted { t with queue := t.queue.edit e, holds := holds } where
  attempts r' hr' := by
    obtain ⟨r, hr, hid, rfl⟩ := InMemoryScanQueue.mem_of_mem_edit hr'
    rw [← hid, ← h.attempts r hr]
    split
    · exact he r
    · rfl
  known out hout := InMemoryScanQueue.length_edit.symm ▸ h.known out hout

theorem counted_enqueue {t : Traffic} (h : Counted t) (package : PackageId)
    (publishedAt : Option DateTime) (trigger : ScanTrigger) :
    Counted (step t (.enqueue package publishedAt trigger)) := by
  unfold step InMemoryScanQueue.enqueue
  dsimp only
  split
  · exact h
  · constructor
    · intro r hr
      rcases List.mem_append.mp hr with hold | hnew
      · exact h.attempts r hold
      · obtain rfl := List.mem_singleton.mp hnew
        refine (List.countP_eq_zero.mpr fun e he => ?_).symm
        rw [decide_eq_true_iff]
        exact (h.known e he).ne
    · intro e he
      have hlt := h.known e he
      dsimp only
      rw [List.length_append]
      exact Nat.lt_add_right _ hlt

/-- What one lease hands out. -/
def handedOut (t : Traffic) (worker : String) (maxAttempts : ℕ) (rows : List Row) :
    List HandOut :=
  rows.map fun r => ⟨r.job.id, worker, t.now, maxAttempts, t.holds r.job.id⟩

theorem handOuts_lease (t : Traffic) (worker : String) (registries : List String) (n : ℕ)
    (leaseSecs : UInt64) (maxAttempts : ℕ) :
    (step t (.lease worker registries n leaseSecs maxAttempts)).handOuts = t.handOuts ++
      handedOut t worker maxAttempts (t.queue.picked t.now registries n maxAttempts) := by
  unfold step InMemoryScanQueue.lease handedOut
  dsimp only
  rw [List.map_map]
  rfl

theorem countP_handedOut (t : Traffic) (worker : String) (maxAttempts : ℕ) (rows : List Row)
    (id : ℕ) : (handedOut t worker maxAttempts rows).countP (fun e => decide (e.job = id)) =
      (rows.map (·.job.id)).count id := by
  unfold handedOut
  rw [List.countP_map, List.count_eq_countP, List.countP_map]
  apply List.countP_congr
  intro r _
  simp

theorem counted_lease {t : Traffic} (h : Counted t) (worker : String) (registries : List String)
    (n : ℕ) (leaseSecs : UInt64) (maxAttempts : ℕ) :
    Counted (step t (.lease worker registries n leaseSecs maxAttempts)) := by
  have hnodup := InMemoryScanQueue.nodup_picked t.queue t.now registries n maxAttempts
  constructor
  · intro r' hr'
    obtain ⟨r, hr, hid, rfl⟩ := InMemoryScanQueue.mem_of_mem_edit hr'
    rw [handOuts_lease, List.countP_append, countP_handedOut, ← hid, ← h.attempts r hr]
    split
    · rename_i hpicked
      have hmem := List.mem_map_of_mem (f := fun r : Row => r.job.id) (of_decide_eq_true hpicked)
      rw [List.count_eq_one_of_mem hnodup hmem]
      rfl
    · rename_i hother
      rw [List.count_eq_zero.mpr, Nat.add_zero]
      intro hmem
      obtain ⟨r', hr', hid'⟩ := List.mem_map.mp hmem
      have hsame := InMemoryScanQueue.row_unique (InMemoryScanQueue.mem_picked hr').1 hr hid'
      exact hother (decide_eq_true (hsame ▸ hr'))
  · intro e he
    rw [handOuts_lease] at he
    have hlength : (step t (.lease worker registries n leaseSecs maxAttempts)).queue.rows.length =
      t.queue.rows.length := InMemoryScanQueue.length_edit
    rw [hlength]
    rcases List.mem_append.mp he with hold | hnew
    · exact h.known e hold
    · obtain ⟨r, hr, rfl⟩ := List.mem_map.mp hnew
      exact InMemoryScanQueue.id_lt_length (InMemoryScanQueue.mem_picked hr).1

theorem counted_step {t : Traffic} (h : Counted t) (e : Event) : Counted (step t e) := by
  cases e with
  | enqueue package publishedAt trigger => exact counted_enqueue h package publishedAt trigger
  | lease worker registries n leaseSecs maxAttempts =>
    exact counted_lease h worker registries n leaseSecs maxAttempts
  | heartbeat => exact h.of_edit fun _ => rfl
  | fail => exact h.of_edit fun _ => rfl
  | complete => exact h.of_edit fun _ => rfl
  | tick => exact ⟨h.attempts, h.known⟩

theorem WithinAttempts.append {old new : List HandOut} (h : WithinAttempts old)
    (hnodup : (new.map (·.job)).Nodup)
    (hnew : ∀ e ∈ new, old.countP (fun e' => decide (e'.job = e.job)) < e.maxAttempts) :
    WithinAttempts (old ++ new) := by
  intro before e after hsplit
  rcases List.append_eq_append_iff.mp hsplit with ⟨mid, rfl, rfl⟩ | ⟨mid, rfl, hrest⟩
  · -- a new one: the new ones before it are of other jobs
    have hmid : mid.countP (fun e' => decide (e'.job = e.job)) = 0 := by
      rw [List.countP_eq_zero]
      intro e' he'
      rw [decide_eq_true_iff]
      rw [List.map_append, List.map_cons] at hnodup
      have hdisjoint := (List.nodup_append'.mp hnodup).2.2
      intro hjob
      exact hdisjoint (List.mem_map_of_mem he') (hjob ▸ List.mem_cons_self)
    rw [List.countP_append, hmid, Nat.add_zero]
    exact hnew e (List.mem_append_right _ List.mem_cons_self)
  · cases mid with
    | nil =>
      rw [List.nil_append] at hrest
      rw [List.append_nil] at hnew
      exact hnew e (hrest ▸ List.mem_cons_self)
    | cons e' mid' =>
      rw [List.cons_append, List.cons.injEq] at hrest
      obtain ⟨rfl, -⟩ := hrest
      exact h before e mid' rfl

theorem withinAttempts_step {t : Traffic} (hcounted : Counted t) (h : WithinAttempts t.handOuts)
    (e : Event) : WithinAttempts (step t e).handOuts := by
  cases e with
  | lease worker registries n leaseSecs maxAttempts =>
    rw [handOuts_lease]
    refine h.append ?_ fun e he => ?_
    · unfold handedOut
      rw [List.map_map]
      exact InMemoryScanQueue.nodup_picked t.queue t.now registries n maxAttempts
    · obtain ⟨r, hr, rfl⟩ := List.mem_map.mp he
      obtain ⟨hmem, hcandidate⟩ := InMemoryScanQueue.mem_picked hr
      obtain ⟨-, -, hattempts, -⟩ := InMemoryScanQueue.isCandidate_iff.mp hcandidate
      rw [hcounted.attempts r hmem] at hattempts
      exact hattempts
  | _ => exact h

end Attempts

section Leases

variable {t : Traffic}

/-- While every holder's lease is intact, only what nobody holds is handed out. -/
theorem exclusive_step (hintact : Intact t) (h : Exclusive t.handOuts) (e : Event) :
    Exclusive (step t e).handOuts := by
  cases e with
  | lease worker registries n leaseSecs maxAttempts =>
    rw [handOuts_lease]
    intro e he hold hfound hother
    rcases List.mem_append.mp he with hmem | hmem
    · exact h e hmem hold hfound hother
    · obtain ⟨r, hr, rfl⟩ := List.mem_map.mp hmem
      obtain ⟨hrow, hcandidate⟩ := InMemoryScanQueue.mem_picked hr
      obtain ⟨-, hfree, -, -⟩ := InMemoryScanQueue.isCandidate_iff.mp hcandidate
      by_contra hlive
      obtain ⟨r', hr', hid, -, hleased⟩ := hintact _ hold hfound (Int.not_lt.mp hlive)
      obtain rfl := InMemoryScanQueue.row_unique hr' hrow hid
      exact hlive (hfree hold.deadline hleased)
  | _ => exact h

theorem intact_enqueue (h : Intact t) (package : PackageId) (publishedAt : Option DateTime)
    (trigger : ScanTrigger) : Intact (step t (.enqueue package publishedAt trigger)) := by
  intro id hold hheld hlive
  obtain ⟨r, hr, hrow⟩ := h id hold hheld hlive
  refine ⟨r, ?_, hrow⟩
  unfold step InMemoryScanQueue.enqueue
  dsimp only
  split
  · exact hr
  · exact List.mem_append_left _ hr

theorem intact_lease (h : Intact t) (worker : String) (registries : List String) (n : ℕ)
    (leaseSecs : UInt64) (maxAttempts : ℕ) :
    Intact (step t (.lease worker registries n leaseSecs maxAttempts)) := by
  intro id hold hheld hlive
  have hids : (t.queue.lease t.now worker registries n leaseSecs maxAttempts).2.map (·.id) =
      (t.queue.picked t.now registries n maxAttempts).map (·.job.id) := by
    unfold InMemoryScanQueue.lease
    dsimp only
    rw [List.map_map]
    rfl
  unfold step at hheld
  dsimp only at hheld
  rw [hids] at hheld
  split at hheld
  · rename_i hid
    obtain rfl := Option.some.inj hheld
    obtain ⟨r, hr, rfl⟩ := List.mem_map.mp hid
    obtain ⟨hrow, hcandidate⟩ := InMemoryScanQueue.mem_picked hr
    obtain ⟨hopen, -⟩ := InMemoryScanQueue.isCandidate_iff.mp hcandidate
    exact ⟨_, InMemoryScanQueue.selected_mem_edit hrow (decide_eq_true hr), rfl, hopen, rfl⟩
  · rename_i hid
    obtain ⟨r, hr, rfl, hopen, hleased⟩ := h id hold hheld hlive
    refine ⟨r, InMemoryScanQueue.unselected_mem_edit hr fun hpicked => hid ?_, rfl, hopen,
      hleased⟩
    exact List.mem_map_of_mem (f := fun r : Row => r.job.id) (of_decide_eq_true hpicked)

theorem intact_heartbeat_iff (h : Intact t) (worker : String) (job : ℕ) (leaseSecs : UInt64) :
    Intact (step t (.heartbeat worker job leaseSecs)) ↔
      Considerate t (.heartbeat worker job leaseSecs) := by
  constructor
  · intro hafter hold hheld hother hlive
    obtain ⟨r, hr, rfl, hopen, hleased⟩ := h job hold hheld hlive
    have hheld' : (step t (.heartbeat worker r.job.id leaseSecs)).holds r.job.id = some hold := by
      unfold step
      dsimp only
      rw [if_pos ⟨rfl, InMemoryScanQueue.isOpen_iff.mpr ⟨r, hr, rfl, hopen⟩⟩, hheld,
        Option.map_some, extendOwn, if_neg hother]
    obtain ⟨r', hr', hid, -, hleased'⟩ := hafter _ hold hheld' hlive
    obtain ⟨s, hs, hid', rfl⟩ := InMemoryScanQueue.mem_of_mem_edit hr'
    obtain rfl := InMemoryScanQueue.row_unique hs hr (hid'.trans hid)
    have hselected : (InMemoryScanQueue.heartbeatEdit t.now s.job.id leaseSecs).selects s =
        true := by
      simp [InMemoryScanQueue.heartbeatEdit, hopen]
    rw [if_pos hselected] at hleased'
    exact Option.some.inj hleased'
  · intro hconsiderate id hold hheld hlive
    unfold step at hheld
    dsimp only at hheld
    split at hheld
    · rename_i hjob
      obtain ⟨rfl, hopen⟩ := hjob
      obtain ⟨before, hbefore, rfl⟩ := Option.map_eq_some_iff.mp hheld
      obtain ⟨r, hr, rfl, hrow⟩ := InMemoryScanQueue.isOpen_iff.mp hopen
      have hselected : (InMemoryScanQueue.heartbeatEdit t.now r.job.id leaseSecs).selects r =
          true := by
        simp [InMemoryScanQueue.heartbeatEdit, hrow]
      refine ⟨_, InMemoryScanQueue.selected_mem_edit hr hselected, rfl, hrow, ?_⟩
      change some (leaseEnd t.now leaseSecs) = _
      unfold extendOwn at hlive ⊢
      split at hlive
      · rw [if_pos ‹_›]
      · rename_i hother
        rw [if_neg hother, hconsiderate before hbefore hother hlive]
    · rename_i hjob
      obtain ⟨r, hr, rfl, hopen, hleased⟩ := h id hold hheld hlive
      refine ⟨r, InMemoryScanQueue.unselected_mem_edit hr fun hedited => hjob ?_, rfl, hopen,
        hleased⟩
      unfold InMemoryScanQueue.heartbeatEdit at hedited
      rw [Bool.and_eq_true, decide_eq_true_iff] at hedited
      exact ⟨hedited.1, hedited.1 ▸ InMemoryScanQueue.isOpen_iff.mpr ⟨r, hr, rfl, hopen⟩⟩

/-- A failure and a completion both free the job. -/
theorem intact_release_iff (h : Intact t) (worker : String) (job : ℕ) {e : RowEdit}
    (hjob : ∀ r, e.selects r = true → r.job.id = job)
    (hopen : ∀ r, r.job.id = job → r.completed = false → e.selects r = true)
    (hfree : ∀ r, (e.change r).job.leasedUntil = none) :
    Intact { t with queue := t.queue.edit e, holds := dropOwn t.holds worker job } ↔
      ∀ hold, t.holds job = some hold → hold.worker ≠ worker → hold.deadline < t.now := by
  constructor
  · intro hafter hold hheld hother
    by_contra hlive
    obtain ⟨r, hr, rfl, hrow, -⟩ := h job hold hheld (Int.not_lt.mp hlive)
    have hheld' : dropOwn t.holds worker r.job.id r.job.id = some hold := by
      unfold dropOwn
      rw [if_pos rfl, hheld, Option.filter_some, if_pos (decide_eq_true hother)]
    obtain ⟨r', hr', hid, -, hleased⟩ := hafter _ hold hheld' (Int.not_lt.mp hlive)
    obtain ⟨s, hs, hid', rfl⟩ := InMemoryScanQueue.mem_of_mem_edit hr'
    obtain rfl := InMemoryScanQueue.row_unique hs hr (hid'.trans hid)
    rw [if_pos (hopen s rfl hrow), hfree] at hleased
    cases hleased
  · intro hexpired id hold hheld hlive
    by_cases hid : id = job
    · subst hid
      have hheld' : (t.holds id).filter (fun h => decide (h.worker ≠ worker)) = some hold := by
        have hdropped : dropOwn t.holds worker id id = some hold := hheld
        unfold dropOwn at hdropped
        rwa [if_pos rfl] at hdropped
      obtain ⟨hbefore, hother⟩ := Option.filter_eq_some_iff.mp hheld'
      exact absurd hlive (Int.not_le.mpr (hexpired hold hbefore (of_decide_eq_true hother)))
    · have hheld' : t.holds id = some hold := by
        have hdropped : dropOwn t.holds worker job id = some hold := hheld
        unfold dropOwn at hdropped
        rwa [if_neg hid] at hdropped
      obtain ⟨r, hr, rfl, hrow⟩ := h id hold hheld' hlive
      exact ⟨r, InMemoryScanQueue.unselected_mem_edit hr fun hp => hid (hjob r hp), rfl, hrow⟩

theorem intact_step_iff (h : Intact t) (e : Event) : Intact (step t e) ↔ Considerate t e := by
  cases e with
  | enqueue package publishedAt trigger =>
    exact iff_of_true (intact_enqueue h package publishedAt trigger) trivial
  | lease worker registries n leaseSecs maxAttempts =>
    exact iff_of_true (intact_lease h worker registries n leaseSecs maxAttempts) trivial
  | heartbeat worker job leaseSecs => exact intact_heartbeat_iff h worker job leaseSecs
  | fail worker job error =>
    refine intact_release_iff h worker job (fun r hp => ?_) (fun r hid hrow => ?_) fun _ => rfl
    · unfold InMemoryScanQueue.failEdit at hp
      rw [Bool.and_eq_true, decide_eq_true_iff] at hp
      exact hp.1
    · simp [InMemoryScanQueue.failEdit, hid, hrow]
  | complete worker job =>
    exact intact_release_iff h worker job (fun r => of_decide_eq_true)
      (fun r hid _ => decide_eq_true hid) fun _ => rfl
  | tick nanos =>
    refine iff_of_true (fun id hold hheld hlive => h id hold hheld ?_) trivial
    exact Int.le_trans (Int.le_add_of_nonneg_right (Int.natCast_nonneg nanos)) hlive

end Leases

theorem lawful_step_iff {t : Traffic} (hcounted : Counted t) (h : Lawful t) (e : Event) :
    Lawful (step t e) ↔ Considerate t e :=
  ⟨fun hafter => (intact_step_iff h.intact e).mp hafter.intact, fun hconsiderate =>
    ⟨oneOpen_step h.oneOpen e, withinAttempts_step hcounted h.attempts e,
      exclusive_step h.intact h.exclusive e, (intact_step_iff h.intact e).mpr hconsiderate⟩⟩

theorem counted_start (now : DateTime) : Counted (.start now) where
  attempts r h := by cases h
  known e h := by cases h

theorem lawful_start (now : DateTime) : Lawful (.start now) where
  oneOpen := List.nodup_nil
  attempts before e after h := by cases before <;> cases h
  exclusive _ h := by cases h
  intact id h hheld := by cases hheld

/-- A queue serves its workers by the laws all along exactly when none of them makes a
heartbeat, a failure or a completion on a job that another one holds. -/
theorem one_holder_iff (now : DateTime) (events : List Event) :
    (∀ before, before <+: events → Lawful (run step (.start now) before)) ↔
      Guarded step Considerate (.start now) events :=
  prefixes_keep_iff Considerate Counted Lawful (fun _ e h => counted_step h e)
    (fun _ e hcounted h => lawful_step_iff hcounted h e) _ events (counted_start now)
    (lawful_start now)

section LateFailure

/-- The lease of `w1` runs out and `w2` has the job when `w1` fails it; then `w3` asks. -/
def lateFailure : List Event :=
  [.enqueue (PackageId.new "npm" "left-pad" "1.0.0") none .firstSeen,
    .lease "w1" [] 1 60 3, .tick (61 * nanosPerSecond), .lease "w2" [] 1 60 3,
    .fail "w1" 0 "timed out", .lease "w3" [] 1 60 3]

theorem lateFailure_handOuts : (run step (.start 0) lateFailure).handOuts =
    [⟨0, "w1", 0, 3, none⟩, ⟨0, "w2", 61000000000, 3, some ⟨"w1", 60000000000⟩⟩,
      ⟨0, "w3", 61000000000, 3, some ⟨"w2", 121000000000⟩⟩] := by
  decide +kernel

/-- A job is handed to a third worker while the second one's lease has a minute to run. -/
theorem a_late_failure_gives_the_job_away : ¬ Lawful (run step (.start 0) lateFailure) := by
  intro h
  have hexclusive := h.exclusive ⟨0, "w3", 61000000000, 3, some ⟨"w2", 121000000000⟩⟩
    (by rw [lateFailure_handOuts]; simp) ⟨"w2", 121000000000⟩ rfl (by decide)
  exact absurd hexclusive (by decide)

end LateFailure

end BatleHub.HeldJobs
