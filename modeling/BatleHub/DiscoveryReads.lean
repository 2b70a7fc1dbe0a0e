import BatleHub.UpstreamFlights

/-!
The discovery read around the single flight, and the memory of what upstream does not have.
A reader asks the memory first and claims the key then; with the guard in hand it looks into
the cache, asks upstream if nothing lies there, writes what it got and drops the guard. The
log is no part of the program: it says, newest first, what was asked and what came of it.
-/
namespace BatleHub.DiscoveryReads

open Lib.AssocMap Lib.Runs UpstreamFlights

section Absences

/-- `ABSENT_CAP`. -/
def absentCap : ℕ := 100000

/-- `Instant::checked_add`; the last instant there is depends on the platform. -/
def checkedAdd (last now ttl : ℕ) : Option ℕ :=
  if now + ttl ≤ last then some (now + ttl) else none

/-- The sweep that makes room at the cap: what has expired goes, and if that is not enough
everything does. -/
def sweep (now : ℕ) (absent : Assoc String ℕ) : Assoc String ℕ :=
  if absentCap ≤ absent.entries.length then
    let live := retain (fun _ deadline => decide (now < deadline)) absent
    if absentCap ≤ live.entries.length then ∅ else live
  else absent

def recordAbsent (last now : ℕ) (absent : Assoc String ℕ) (key : String) (ttl : ℕ) :
    Assoc String ℕ :=
  if ttl = 0 then absent
  else
    match checkedAdd last now ttl with
    | some deadline => (sweep now absent).insert key deadline
    | none => sweep now absent

/-- The answer, and the map without the entry that was found expired. -/
def isAbsent (now : ℕ) (absent : Assoc String ℕ) (key : String) : Bool × Assoc String ℕ :=
  match absent.lookup key with
  | some deadline => if now < deadline then (true, absent) else (false, absent.erase key)
  | none => (false, absent)

theorem length_sweep_lt (now : ℕ) (absent : Assoc String ℕ) :
    (sweep now absent).entries.length < absentCap := by
  unfold sweep
  split
  · dsimp only
    split
    · exact Nat.zero_lt_succ _
    · rename_i h
      exact Nat.lt_of_not_le h
  · rename_i h
    exact Nat.lt_of_not_le h

theorem lookup_sweep {now deadline : ℕ} {absent : Assoc String ℕ} {key : String}
    (h : (sweep now absent).lookup key = some deadline) : absent.lookup key = some deadline := by
  unfold sweep at h
  split at h
  · dsimp only at h
    split at h
    · simp at h
    · rw [lookup_retain, Option.filter_eq_some_iff] at h
      exact h.1
  · exact h

theorem sweep_of_lt {now : ℕ} {absent : Assoc String ℕ} (h : absent.entries.length < absentCap) :
    sweep now absent = absent := if_neg (Nat.not_le.mpr h)

theorem length_insert_le (absent : Assoc String ℕ) (key : String) (deadline : ℕ) :
    (absent.insert key deadline).entries.length ≤ absent.entries.length + 1 := by
  rw [AList.entries_insert, List.length_cons]
  exact Nat.succ_le_succ (List.Sublist.length_le (List.kerase_sublist key absent.entries))

theorem length_recordAbsent_le (last now : ℕ) {absent : Assoc String ℕ} (key : String) (ttl : ℕ)
    (h : absent.entries.length ≤ absentCap) :
    (recordAbsent last now absent key ttl).entries.length ≤ absentCap := by
  have hroom := length_sweep_lt now absent
  unfold recordAbsent
  split
  · exact h
  · split
    · exact Nat.le_trans (length_insert_le _ key _) hroom
    · exact Nat.le_of_lt hroom

/-- With room left, one absence more is one entry more at most. -/
theorem length_recordAbsent_of_lt (last now : ℕ) {absent : Assoc String ℕ} (key : String)
    (ttl : ℕ) (h : absent.entries.length < absentCap) :
    (recordAbsent last now absent key ttl).entries.length ≤ absent.entries.length + 1 := by
  unfold recordAbsent
  rw [sweep_of_lt h]
  split
  · exact Nat.le_succ _
  · split
    · exact length_insert_le absent key _
    · exact Nat.le_succ _

theorem length_isAbsent_le (now : ℕ) (absent : Assoc String ℕ) (key : String) :
    (isAbsent now absent key).2.entries.length ≤ absent.entries.length := by
  unfold isAbsent
  split
  · split
    · exact Nat.le_refl _
    · exact List.Sublist.length_le (List.kerase_sublist key absent.entries)
  · exact Nat.le_refl _

/-- An entry that is there afterwards is the new one or was there. -/
theorem lookup_recordAbsent {last now deadline ttl : ℕ} {absent : Assoc String ℕ}
    {key other : String} (h : (recordAbsent last now absent key ttl).lookup other = some deadline) :
    other = key ∧ deadline = now + ttl ∨ absent.lookup other = some deadline := by
  unfold recordAbsent at h
  split at h
  · exact .inr h
  · split at h
    · rename_i d hadd
      rw [lookup_insert_eq] at h
      split at h
      · rename_i hkey
        unfold checkedAdd at hadd
        split at hadd
        · refine .inl ⟨hkey, ?_⟩
          rw [← Option.some.inj h, ← Option.some.inj hadd]
        · cases hadd
      · exact .inr (lookup_sweep h)
    · exact .inr (lookup_sweep h)

theorem lookup_isAbsent {now deadline : ℕ} {absent : Assoc String ℕ} {key other : String}
    (h : (isAbsent now absent key).2.lookup other = some deadline) :
    absent.lookup other = some deadline := by
  unfold isAbsent at h
  split at h
  · split at h
    · exact h
    · rw [lookup_erase_eq] at h
      split at h
      · cases h
      · exact h
  · exact h

/-- An entry that is still good is not dropped by a look at the map. -/
theorem lookup_isAbsent_of_live {now deadline : ℕ} {absent : Assoc String ℕ} {other : String}
    (key : String) (hthere : absent.lookup other = some deadline) (hlive : now < deadline) :
    (isAbsent now absent key).2.lookup other = some deadline := by
  unfold isAbsent
  split
  · rename_i d hd
    split
    · exact hthere
    · rename_i hexpired
      rw [lookup_erase_eq, if_neg]
      · exact hthere
      · rintro rfl
        rw [hthere] at hd
        exact hexpired (Option.some.inj hd ▸ hlive)
  · exact hthere

theorem isAbsent_iff (now : ℕ) (absent : Assoc String ℕ) (key : String) :
    (isAbsent now absent key).1 = true ↔
      ∃ deadline, absent.lookup key = some deadline ∧ now < deadline := by
  unfold isAbsent
  split
  · rename_i d hd
    split
    · rename_i hlive
      exact iff_of_true rfl ⟨d, hd, hlive⟩
    · rename_i hexpired
      refine iff_of_false Bool.false_ne_true ?_
      intro hex
      obtain ⟨deadline, hsome, hlive⟩ := hex
      rw [hd] at hsome
      exact hexpired (Option.some.inj hsome ▸ hlive)
  · rename_i hnone
    refine iff_of_false Bool.false_ne_true ?_
    intro hex
    obtain ⟨deadline, hsome, -⟩ := hex
    rw [hnone] at hsome
    cases hsome

end Absences

section Reads

/-- What a reader with the guard is about to do. -/
inductive Stage (δ : Type*) where
  | checking
  | requesting
  | storing (doc : δ)
  | finished

def Stage.Busy {δ : Type*} : Stage δ → Prop
  | .requesting | .storing _ => True
  | _ => False

/-- What comes back for an upstream request. -/
inductive Answer (δ : Type*) where
  | found (doc : δ)
  | notFound
  /-- An upstream failure, also where a stale entry is served in its place. -/
  | failed

inductive Entry where
  | asked (key : String)
  /-- A request that put nothing into the cache. -/
  | fruitless (key : String)
  /-- The cache let the entry go: expired, evicted, invalidated or not readable. -/
  | lost (key : String)
  | missing (key : String) (at_ : ℕ)
  | cleared
  deriving DecidableEq, Repr

structure Discovery (τ δ : Type*) where
  flights : Flights τ
  absent : Assoc String ℕ
  /-- What `get` answers: entries the store considers fresh and that decode. -/
  cache : String → Option δ
  stage : τ → Stage δ
  log : List Entry

def Discovery.start (τ δ : Type*) (now : ℕ) : Discovery τ δ :=
  ⟨Flights.start τ now, ∅, fun _ => none, fun _ => .checking, []⟩

/-- `negative_ttl` of the key's registry and the last representable instant. -/
structure Limits where
  negativeTtl : String → ℕ
  last : ℕ

inductive Event (τ δ : Type*) where
  /-- The page is opened: the memory is asked, and the key claimed if it does not answer. -/
  | visit (t : τ) (key : String) (wait : ℕ)
  | move (t : τ) (a : Action)
  | check (t : τ)
  | answer (t : τ) (answer : Answer δ)
  | store (t : τ) (kept : Bool)
  /-- The reader's future is dropped while it has the guard. -/
  | cancel (t : τ)
  | drop (t : τ)
  | clearAbsent
  | tick (nanos : ℕ)
  /-- Another path puts the same document into the cache. -/
  | fill (key : String) (doc : δ)
  /-- The entry is not there any more, or `get` fails on it. -/
  | lose (key : String)

variable {τ δ : Type*} [DecidableEq τ]

def Discovery.enter (d : Discovery τ δ) (t : τ) (stage : Stage δ) : Discovery τ δ :=
  { d with stage := Function.update d.stage t stage }

/-- The step of a reader that holds the guard of `key`. -/
def guarded (limits : Limits) (d : Discovery τ δ) (t : τ) (key : String) :
    Event τ δ → Discovery τ δ
  | .check _ =>
    match d.stage t with
    | .checking =>
      if (d.cache key).isSome then d.enter t .finished
      else { d.enter t .requesting with log := .asked key :: d.log }
    | _ => d
  | .answer _ answer =>
    match d.stage t with
    | .requesting =>
      match answer with
      | .found doc => d.enter t (.storing doc)
      | .notFound =>
        { d.enter t .finished with
          absent := recordAbsent limits.last d.flights.now d.absent key (limits.negativeTtl key)
          log := .missing key d.flights.now :: .fruitless key :: d.log }
      | .failed => { d.enter t .finished with log := .fruitless key :: d.log }
    | _ => d
  | .store _ kept =>
    match d.stage t with
    | .storing doc =>
      -- a failed write is logged and no more
      if kept then { d.enter t .finished with cache := Function.update d.cache key (some doc) }
      else { d.enter t .finished with log := .fruitless key :: d.log }
    | _ => d
  | .cancel _ =>
    match d.stage t with
    | .requesting | .storing _ =>
      { d.enter t .finished with log := .fruitless key :: d.log }
    | _ => d.enter t .finished
  | .drop _ =>
    match d.stage t with
    | .finished => { d.enter t .checking with flights := UpstreamFlights.act d.flights t .drop }
    | _ => d
  | _ => d

def step (limits : Limits) (d : Discovery τ δ) (e : Event τ δ) : Discovery τ δ :=
  match e with
  | .visit t key wait =>
    match d.flights.place t with
    | .outside =>
      let answer := isAbsent d.flights.now d.absent key
      if answer.1 then { d with absent := answer.2 }
      else { d with
        absent := answer.2
        flights := UpstreamFlights.act d.flights t (.claim key wait) }
    | _ => d
  | .move t a =>
    match a with
    | .claim _ _ | .drop => d
    | _ => { d with flights := UpstreamFlights.act d.flights t a }
  | .check t | .answer t _ | .store t _ | .cancel t | .drop t =>
    match d.flights.place t with
    | .holding key => guarded limits d t key e
    | _ => d
  | .clearAbsent => { d with absent := ∅, log := .cleared :: d.log }
  | .tick nanos => { d with flights := UpstreamFlights.step d.flights (.tick nanos) }
  | .fill key doc => { d with cache := Function.update d.cache key (some doc) }
  | .lose key =>
    { d with
      cache := Function.update d.cache key none
      log := if (d.cache key).isSome then .lost key :: d.log else d.log }

end Reads

section Flights

variable {τ δ : Type*} [DecidableEq τ] {limits : Limits}

/-- The flights move by their own steps, or stay. -/
theorem flights_guarded (limits : Limits) (d : Discovery τ δ) (t : τ) (key : String)
    (e : Event τ δ) :
    (guarded limits d t key e).flights = d.flights ∨
      (guarded limits d t key e).flights = UpstreamFlights.act d.flights t .drop := by
  unfold guarded
  split <;> try split
  all_goals try split
  all_goals first
    | exact .inl rfl
    | exact .inr rfl

theorem lawful_step (d : Discovery τ δ) (e : Event τ δ) (h : Lawful d.flights) :
    Lawful (step limits d e).flights := by
  have hguarded : ∀ t, Lawful (match d.flights.place t with
      | .holding key => guarded limits d t key e
      | _ => d).flights := by
    intro t
    split
    · rename_i key hat
      rcases flights_guarded limits d t key e with heq | heq
      · rw [heq]
        exact h
      · rw [heq]
        exact UpstreamFlights.lawful_step h (.act t .drop)
    · exact h
  cases e with
  | visit t key wait =>
    simp only [step]
    split
    · split
      · exact h
      · exact UpstreamFlights.lawful_step h (.act t (.claim key wait))
    · exact h
  | move t a =>
    simp only [step]
    split
    · exact h
    · exact h
    · exact UpstreamFlights.lawful_step h (.act t _)
  | tick nanos => exact UpstreamFlights.lawful_step h (.tick nanos)
  | clearAbsent | fill | lose => exact h
  | _ => exact hguarded _

end Flights

section Requests

variable {τ δ : Type*} [DecidableEq τ] {limits : Limits}

def asked (d : Discovery τ δ) (key : String) : ℕ := d.log.count (.asked key)

/-- What makes a further request for the key necessary. -/
def spent (d : Discovery τ δ) (key : String) : ℕ :=
  d.log.count (.fruitless key) + d.log.count (.lost key)

def Requests (d : Discovery τ δ) (t : τ) (key : String) : Prop :=
  d.flights.place t = .holding key ∧ (d.stage t).Busy

/-- The answer lies in the cache, or a reader is about to put it there. -/
def Engaged (d : Discovery τ δ) (key : String) : Prop :=
  (d.cache key).isSome ∨ ∃ t, Requests d t key

/-- Each request is accounted for: by what came to nothing, or by the one that is engaged. -/
def Accounted (d : Discovery τ δ) (key : String) : Prop :=
  asked d key ≤ spent d key + 1 ∧ (¬ Engaged d key → asked d key ≤ spent d key)

omit [DecidableEq τ] in
/-- A step that asks nothing keeps the account if what ends the engagement is spent. -/
theorem accounted_of_quiet {d d' : Discovery τ δ} {key : String} (h : Accounted d key)
    (hasked : asked d' key = asked d key) (hspent : spent d key ≤ spent d' key)
    (hengaged : Engaged d key → Engaged d' key ∨ spent d key + 1 ≤ spent d' key) :
    Accounted d' key := by
  refine ⟨by rw [hasked]; exact Nat.le_trans h.1 (Nat.succ_le_succ hspent), ?_⟩
  intro hfree
  rw [hasked]
  by_cases heng : Engaged d key
  · rcases hengaged heng with hstill | hpaid
    · exact absurd hstill hfree
    · exact Nat.le_trans h.1 hpaid
  · exact Nat.le_trans (h.2 heng) hspent

/-- No reader's step takes the guard of another. -/
theorem holding_of_moves {s s' : Flights τ} {t t' : τ} {key : String} (hm : Moves t s s')
    (hne : t' ≠ t) (h : s.place t' = .holding key) : s'.place t' = .holding key := by
  cases hm with
  | signal notify hat =>
    dsimp only
    rw [Function.update_of_ne hne]
    exact (wakeOn_eq_holding_iff notify (s.place t') key).mpr h
  | _ =>
    simp only [put_place, if_neg hne]
    exact h

/-- Only its own drop takes a guard from its holder. -/
theorem holding_act {s : Flights τ} {t t' : τ} {a : Action} {key : String}
    (h : s.place t' = .holding key) (hown : t' = t → a ≠ .drop) :
    (act s t a).place t' = .holding key := by
  by_cases heq : t' = t
  · subst heq
    have hne := hown rfl
    cases a <;> simp [act, h] at hne ⊢
  · rcases act_cases s t a with hstay | hm
    · rw [hstay]
      exact h
    · exact holding_of_moves hm heq h

/-- A move inside `claim`, or into it, leaves every request where it is. -/
theorem accounted_act {d : Discovery τ δ} {key : String} (h : Accounted d key) (t : τ)
    {a : Action} (ha : a ≠ .drop) (absent : Assoc String ℕ) :
    Accounted { d with absent := absent, flights := act d.flights t a } key := by
  refine accounted_of_quiet h rfl (Nat.le_refl _) ?_
  intro heng
  rcases heng with hcached | ⟨t', hreq⟩
  · exact .inl (.inl hcached)
  · exact .inl (.inr ⟨t', holding_act hreq.1 fun _ => ha, hreq.2⟩)

@[simp]
theorem enter_stage (d : Discovery τ δ) (t : τ) (stage : Stage δ) :
    (d.enter t stage).stage = Function.update d.stage t stage := rfl

theorem requests_enter {d : Discovery τ δ} {t t' : τ} {key : String} (h : Requests d t' key)
    (hne : t' ≠ t) (stage : Stage δ) : Requests (d.enter t stage) t' key :=
  ⟨h.1, by rw [enter_stage, Function.update_of_ne hne]; exact h.2⟩

theorem requests_enter_self {d : Discovery τ δ} {t : τ} {key : String}
    (h : d.flights.place t = .holding key) {stage : Stage δ} (hbusy : stage.Busy) :
    Requests (d.enter t stage) t key :=
  ⟨h, by rw [enter_stage, Function.update_self]; exact hbusy⟩

/-- The reader asks upstream: nothing lay in the cache, and no other reader of the key can be
at it, so the account was even. -/
theorem accounted_ask {d : Discovery τ δ} {t : τ} {key key' : String} (hlaw : Lawful d.flights)
    (h : Accounted d key') (hat : d.flights.place t = .holding key)
    (hstage : d.stage t = .checking) (hmiss : ¬ (d.cache key).isSome) :
    Accounted { d.enter t .requesting with log := .asked key :: d.log } key' := by
  by_cases hkey : key = key'
  · subst hkey
    have hfree : ¬ Engaged d key := by
      intro heng
      rcases heng with hcached | ⟨t', hholds, hbusy⟩
      · exact hmiss hcached
      · obtain rfl := hlaw.alone t' t key hholds hat
        rw [hstage] at hbusy
        exact hbusy
    have heven := h.2 hfree
    have hasked : asked { d.enter t .requesting with log := Entry.asked key :: d.log } key =
        asked d key + 1 := List.count_cons_self
    have hspent : spent { d.enter t .requesting with log := Entry.asked key :: d.log } key =
        spent d key := by simp [spent]
    refine ⟨by omega, fun hidle => ?_⟩
    exact absurd (.inr ⟨t, requests_enter_self hat trivial⟩) hidle
  · refine accounted_of_quiet h (List.count_cons_of_ne (by simpa using hkey)) ?_ ?_
    · simp [spent]
    · intro heng
      rcases heng with hcached | ⟨t', hreq⟩
      · exact .inl (.inl hcached)
      · have hne : t' ≠ t := by
          rintro rfl
          exact hkey (Place.holding.inj (hat.symm.trans hreq.1))
        exact .inl (.inr ⟨t', requests_enter hreq hne .requesting⟩)

/-- A reader of the key goes on to another stage. What it leaves behind is either still
engaged, or paid for. -/
theorem accounted_enter {d d' : Discovery τ δ} {t : τ} {key key' : String} (stage : Stage δ)
    (h : Accounted d key') (hat : d.flights.place t = .holding key)
    (hflights : d'.flights = d.flights) (hstages : d'.stage = Function.update d.stage t stage)
    (hcache : ∀ k, (d.cache k).isSome → (d'.cache k).isSome)
    (hasked : asked d' key' = asked d key') (hspent : spent d key' ≤ spent d' key')
    (hself : (d.stage t).Busy → key' = key →
      stage.Busy ∨ (d'.cache key').isSome ∨ spent d key' + 1 ≤ spent d' key') :
    Accounted d' key' := by
  refine accounted_of_quiet h hasked hspent ?_
  intro heng
  rcases heng with hcached | ⟨t', hholds, hbusy⟩
  · exact .inl (.inl (hcache key' hcached))
  · by_cases heq : t' = t
    · subst heq
      obtain rfl : key = key' := Place.holding.inj (hat.symm.trans hholds)
      rcases hself hbusy rfl with hgoes | hcached | hpaid
      · refine .inl (.inr ⟨t', ?_, ?_⟩)
        · rw [hflights]
          exact hholds
        · rw [hstages, Function.update_self]
          exact hgoes
      · exact .inl (.inl hcached)
      · exact .inr hpaid
    · refine .inl (.inr ⟨t', ?_, ?_⟩)
      · rw [hflights]
        exact hholds
      · rw [hstages, Function.update_of_ne heq]
        exact hbusy

/-- A reader of the key ends with nothing in the cache, and says so. -/
theorem accounted_fruitless {d d' : Discovery τ δ} {t : τ} {key key' : String}
    (h : Accounted d key') (hat : d.flights.place t = .holding key)
    (hflights : d'.flights = d.flights) (hstages : d'.stage = Function.update d.stage t .finished)
    (hcache : d'.cache = d.cache) (hasked : asked d' key' = asked d key')
    (hspent : spent d' key' = spent d key' + if key' = key then 1 else 0) :
    Accounted d' key' := by
  have hle : spent d key' ≤ spent d' key' := by
    rw [hspent]
    exact Nat.le_add_right _ _
  refine accounted_enter _ h hat hflights hstages ?_ hasked hle ?_
  · intro k hcached
    rw [hcache]
    exact hcached
  · intro _ hkey
    right; right
    rw [hspent, if_pos hkey]

omit [DecidableEq τ] in
theorem spent_fruitless (d : Discovery τ δ) (key key' : String) :
    spent { d with log := .fruitless key :: d.log } key' =
      spent d key' + if key' = key then 1 else 0 := by
  have hlost : (Entry.fruitless key :: d.log).count (.lost key') = d.log.count (.lost key') :=
    List.count_cons_of_ne (by simp)
  simp only [spent, hlost]
  by_cases hkey : key' = key
  · subst hkey
    rw [List.count_cons_self, if_pos rfl]
    omega
  · have hfruitless : (Entry.fruitless key :: d.log).count (.fruitless key') =
        d.log.count (.fruitless key') := List.count_cons_of_ne (by simpa using Ne.symm hkey)
    rw [hfruitless, if_neg hkey, Nat.add_zero]

theorem accounted_answer {d : Discovery τ δ} {t : τ} {key key' : String} (h : Accounted d key')
    (hat : d.flights.place t = .holding key) (answer : Answer δ) :
    Accounted (guarded limits d t key (.answer t answer)) key' := by
  unfold guarded
  dsimp only
  split
  · split
    · exact accounted_enter _ h hat rfl rfl (fun _ => id) rfl (Nat.le_refl _)
        fun _ _ => .inl trivial
    · refine accounted_fruitless h hat rfl rfl rfl (by simp [asked]) ?_
      rw [← spent_fruitless]
      simp [spent]
    · exact accounted_fruitless h hat rfl rfl rfl (by simp [asked]) (spent_fruitless d key key')
  · exact h

theorem accounted_store {d : Discovery τ δ} {t : τ} {key key' : String} (h : Accounted d key')
    (hat : d.flights.place t = .holding key) (kept : Bool) :
    Accounted (guarded limits d t key (.store t kept)) key' := by
  unfold guarded
  dsimp only
  split
  · rename_i doc hstage
    split
    · refine accounted_enter .finished h hat rfl rfl ?_ rfl (Nat.le_refl _) ?_
      · intro k hcached
        dsimp only
        rw [Function.update_apply]
        split
        · rfl
        · exact hcached
      · intro _ hkey
        subst hkey
        right; left
        dsimp only
        rw [Function.update_self]
        rfl
    · exact accounted_fruitless h hat rfl rfl rfl (by simp [asked]) (spent_fruitless d key key')
  · exact h

theorem accounted_cancel {d : Discovery τ δ} {t : τ} {key key' : String} (h : Accounted d key')
    (hat : d.flights.place t = .holding key) :
    Accounted (guarded limits d t key (.cancel t)) key' := by
  unfold guarded
  dsimp only
  split
  · exact accounted_fruitless h hat rfl rfl rfl (by simp [asked]) (spent_fruitless d key key')
  · exact accounted_fruitless h hat rfl rfl rfl (by simp [asked]) (spent_fruitless d key key')
  · rename_i hquiet hidle
    refine accounted_enter _ h hat rfl rfl (fun _ => id) rfl (Nat.le_refl _) ?_
    intro hbusy _
    cases hstage : d.stage t with
    | requesting => exact absurd hstage hquiet
    | storing doc => exact absurd hstage (hidle doc)
    | _ =>
      rw [hstage] at hbusy
      exact absurd hbusy id

theorem accounted_drop {d : Discovery τ δ} {t : τ} {key key' : String} (h : Accounted d key')
    (hat : d.flights.place t = .holding key) :
    Accounted (guarded limits d t key (.drop t)) key' := by
  unfold guarded
  dsimp only
  split
  · rename_i hstage
    refine accounted_of_quiet h rfl (Nat.le_refl _) ?_
    intro heng
    rcases heng with hcached | ⟨t', hholds, hbusy⟩
    · exact .inl (.inl hcached)
    · have hne : t' ≠ t := by
        rintro rfl
        rw [hstage] at hbusy
        exact hbusy
      refine .inl (.inr ⟨t', holding_act hholds fun heq => absurd heq hne, ?_⟩)
      dsimp only [enter_stage]
      rw [Function.update_of_ne hne]
      exact hbusy
  · exact h

theorem accounted_check {d : Discovery τ δ} {t : τ} {key key' : String} (hlaw : Lawful d.flights)
    (h : Accounted d key') (hat : d.flights.place t = .holding key) :
    Accounted (guarded limits d t key (.check t)) key' := by
  unfold guarded
  dsimp only
  split
  · rename_i hstage
    split
    · refine accounted_enter _ h hat rfl rfl (fun _ => id) rfl (Nat.le_refl _) ?_
      intro hbusy _
      rw [hstage] at hbusy
      exact absurd hbusy id
    · rename_i hmiss
      exact accounted_ask hlaw h hat hstage hmiss
  · exact h

theorem accounted_lose {d : Discovery τ δ} {key' : String} (h : Accounted d key') (key : String) :
    Accounted (step limits d (.lose key)) key' := by
  by_cases hcached : (d.cache key).isSome
  · refine accounted_of_quiet h ?_ ?_ ?_
    · simp [asked, step, hcached]
    · simp only [spent, step, hcached, if_true, List.count_cons]
      omega
    · intro heng
      by_cases hkey : key' = key
      · subst hkey
        right
        have hlost : (Entry.lost key' :: d.log).count (.lost key') =
            d.log.count (.lost key') + 1 := List.count_cons_self
        have hfruitless : (Entry.lost key' :: d.log).count (.fruitless key') =
            d.log.count (.fruitless key') := List.count_cons_of_ne (by simp)
        simp only [spent, step, hcached, if_true, hlost, hfruitless]
        omega
      · left
        rcases heng with hother | hreq
        · left
          simp only [step]
          rw [Function.update_of_ne hkey]
          exact hother
        · exact .inr hreq
  · refine accounted_of_quiet h (by simp [asked, step, hcached]) (by simp [spent, step, hcached]) ?_
    intro heng
    left
    rcases heng with hother | hreq
    · left
      simp only [step]
      rw [Function.update_of_ne]
      · exact hother
      · rintro rfl
        exact hcached hother
    · exact .inr hreq

theorem accounted_step {d : Discovery τ δ} (hlaw : Lawful d.flights) {key' : String}
    (h : Accounted d key') (e : Event τ δ) : Accounted (step limits d e) key' := by
  cases e with
  | visit t key wait =>
    simp only [step]
    split
    · split
      · exact accounted_of_quiet h rfl (Nat.le_refl _) .inl
      · exact accounted_act h t (by simp) _
    · exact h
  | move t a =>
    simp only [step]
    split
    · exact h
    · exact h
    · rename_i hne
      exact accounted_act h t (fun heq => hne heq) d.absent
  | check t =>
    simp only [step]
    split
    · rename_i key hat
      exact accounted_check hlaw h hat
    · exact h
  | answer t answer =>
    simp only [step]
    split
    · rename_i key hat
      exact accounted_answer h hat answer
    · exact h
  | store t kept =>
    simp only [step]
    split
    · rename_i key hat
      exact accounted_store h hat kept
    · exact h
  | cancel t =>
    simp only [step]
    split
    · rename_i key hat
      exact accounted_cancel h hat
    · exact h
  | drop t =>
    simp only [step]
    split
    · rename_i key hat
      exact accounted_drop h hat
    · exact h
  | clearAbsent => exact accounted_of_quiet h (by simp [asked, step]) (by simp [spent, step]) .inl
  | tick nanos => exact accounted_of_quiet h rfl (Nat.le_refl _) .inl
  | fill key doc =>
    refine accounted_of_quiet h rfl (Nat.le_refl _) ?_
    intro heng
    rcases heng with hcached | hreq
    · refine .inl (.inl ?_)
      simp only [step, Function.update_apply]
      split
      · rfl
      · exact hcached
    · exact .inl (.inr hreq)
  | lose key => exact accounted_lose h key

end Requests

section Memory

variable {τ δ : Type*} [DecidableEq τ] {limits : Limits}

def Entry.isMissing : Entry → Bool
  | .missing _ _ => true
  | _ => false

/-- Upstream has said so since the memory was last cleared. -/
def Remembered (log : List Entry) (key : String) (at_ : ℕ) : Prop :=
  .missing key at_ ∈ log.takeWhile fun e => decide (e ≠ .cleared)

instance (log : List Entry) (key : String) (at_ : ℕ) : Decidable (Remembered log key at_) :=
  inferInstanceAs (Decidable (_ ∈ _))

theorem remembered_cons_iff (e : Entry) (log : List Entry) (key : String) (at_ : ℕ) :
    Remembered (e :: log) key at_ ↔
      e ≠ .cleared ∧ (e = .missing key at_ ∨ Remembered log key at_) := by
  unfold Remembered
  by_cases he : e = .cleared
  · subst he
    simp
  · rw [List.takeWhile_cons_of_pos (by simpa using he), List.mem_cons]
    simp [he, eq_comm]

theorem mem_of_remembered {log : List Entry} {key : String} {at_ : ℕ}
    (h : Remembered log key at_) : .missing key at_ ∈ log :=
  (List.takeWhile_sublist _).subset h

/-- The map holds no more than the cap and nothing that upstream has not said; and as long as
upstream has not said more than the cap holds, everything that it said and that is still
good. -/
structure Recalls (limits : Limits) (d : Discovery τ δ) : Prop where
  bounded : d.absent.entries.length ≤ absentCap
  grounded : ∀ key deadline, d.absent.lookup key = some deadline →
    ∃ at_, Remembered d.log key at_ ∧ deadline = at_ + limits.negativeTtl key
  past : ∀ key at_, .missing key at_ ∈ d.log → at_ ≤ d.flights.now
  sized : d.log.countP Entry.isMissing ≤ absentCap →
    d.absent.entries.length ≤ d.log.countP Entry.isMissing
  complete : d.log.countP Entry.isMissing ≤ absentCap →
    ∀ key at_, limits.negativeTtl key ≠ 0 → Remembered d.log key at_ →
      at_ + limits.negativeTtl key ≤ limits.last → d.flights.now < at_ + limits.negativeTtl key →
      ∃ deadline, at_ + limits.negativeTtl key ≤ deadline ∧ d.absent.lookup key = some deadline

omit [DecidableEq τ] in
theorem Recalls.start (now : ℕ) : Recalls limits (Discovery.start τ δ now) :=
  ⟨Nat.zero_le _, by simp [Discovery.start], by simp [Discovery.start], fun _ => Nat.le_refl _,
    by simp [Discovery.start, Remembered]⟩

omit [DecidableEq τ] in
/-- What a step may do to the memory without asking it or telling it anything: time passes,
and the log goes on with entries about requests. -/
theorem recalls_of_quiet {d d' : Discovery τ δ} (h : Recalls limits d)
    (habsent : d'.absent = d.absent) (hnow : d.flights.now ≤ d'.flights.now)
    (hlog : d'.log = d.log ∨ ∃ e : Entry, d'.log = e :: d.log ∧ e ≠ .cleared ∧
      e.isMissing = false) : Recalls limits d' := by
  have hcount : d'.log.countP Entry.isMissing = d.log.countP Entry.isMissing := by
    rcases hlog with heq | ⟨e, heq, -, hmissing⟩
    · rw [heq]
    · rw [heq, List.countP_cons_of_neg (by simp [hmissing])]
  have hremembered : ∀ key at_, Remembered d'.log key at_ ↔ Remembered d.log key at_ := by
    intro key at_
    rcases hlog with heq | ⟨e, heq, hcleared, hmissing⟩
    · rw [heq]
    · rw [heq, remembered_cons_iff]
      constructor
      · intro hcase
        rcases hcase.2 with rfl | hold
        · cases hmissing
        · exact hold
      · exact fun hold => ⟨hcleared, .inr hold⟩
  have hmem : ∀ key at_, Entry.missing key at_ ∈ d'.log → Entry.missing key at_ ∈ d.log := by
    intro key at_ hin
    rcases hlog with heq | ⟨e, heq, -, hmissing⟩
    · rwa [heq] at hin
    · rw [heq, List.mem_cons] at hin
      rcases hin with rfl | hold
      · cases hmissing
      · exact hold
  refine ⟨habsent ▸ h.bounded, ?_, ?_, ?_, ?_⟩
  · intro key deadline hthere
    obtain ⟨at_, hrem, heq⟩ := h.grounded key deadline (habsent ▸ hthere)
    exact ⟨at_, (hremembered key at_).mpr hrem, heq⟩
  · exact fun key at_ hin => Nat.le_trans (h.past key at_ (hmem key at_ hin)) hnow
  · rw [hcount, habsent]
    exact h.sized
  · rw [hcount, habsent]
    intro hfew key at_ httl hrem hlast hgood
    exact h.complete hfew key at_ httl ((hremembered key at_).mp hrem) hlast
      (Nat.lt_of_le_of_lt hnow hgood)

omit [DecidableEq τ] in
theorem recalls_visit {d : Discovery τ δ} (h : Recalls limits d) (key : String)
    {flights : Flights τ} (hnow : flights.now = d.flights.now) :
    Recalls limits { d with
      absent := (isAbsent d.flights.now d.absent key).2, flights := flights } := by
  have hlength := length_isAbsent_le d.flights.now d.absent key
  refine ⟨Nat.le_trans hlength h.bounded, ?_, ?_, ?_, ?_⟩
  · exact fun key' deadline hthere => h.grounded key' deadline (lookup_isAbsent hthere)
  · intro key' at_ hin
    exact Nat.le_trans (h.past key' at_ hin) (Nat.le_of_eq hnow.symm)
  · exact fun hfew => Nat.le_trans hlength (h.sized hfew)
  · intro hfew key' at_ httl hrem hlast hgood
    dsimp only at hgood
    rw [hnow] at hgood
    obtain ⟨deadline, hle, hthere⟩ := h.complete hfew key' at_ httl hrem hlast hgood
    exact ⟨deadline, hle, lookup_isAbsent_of_live key hthere (Nat.lt_of_lt_of_le hgood hle)⟩

theorem recordAbsent_of_last {last now ttl : ℕ} {absent : Assoc String ℕ} (key : String)
    (httl : ttl ≠ 0) (hlast : now + ttl ≤ last) (hroom : absent.entries.length < absentCap) :
    recordAbsent last now absent key ttl = absent.insert key (now + ttl) := by
  simp [recordAbsent, httl, checkedAdd, hlast, sweep_of_lt hroom]

theorem lookup_recordAbsent_of_ne {last now ttl : ℕ} {absent : Assoc String ℕ}
    {key other : String} (hne : other ≠ key) (hroom : absent.entries.length < absentCap) :
    (recordAbsent last now absent key ttl).lookup other = absent.lookup other := by
  unfold recordAbsent
  rw [sweep_of_lt hroom]
  split
  · rfl
  · split
    · rw [lookup_insert_eq, if_neg hne]
    · rfl

theorem recordAbsent_past_last {last now ttl : ℕ} {absent : Assoc String ℕ} (key : String)
    (hlast : ¬ now + ttl ≤ last) (hroom : absent.entries.length < absentCap) :
    recordAbsent last now absent key ttl = absent := by
  simp [recordAbsent, checkedAdd, hlast, sweep_of_lt hroom]

omit [DecidableEq τ] in
theorem recalls_missing {d : Discovery τ δ} (h : Recalls limits d) (key : String)
    (stage : τ → Stage δ) :
    Recalls limits { d with
      stage := stage
      absent := recordAbsent limits.last d.flights.now d.absent key (limits.negativeTtl key)
      log := .missing key d.flights.now :: .fruitless key :: d.log } := by
  have hremembered : ∀ key' at_,
      Remembered (.missing key d.flights.now :: .fruitless key :: d.log) key' at_ ↔
        key = key' ∧ d.flights.now = at_ ∨ Remembered d.log key' at_ := by
    intro key' at_
    rw [remembered_cons_iff, remembered_cons_iff]
    simp
  have hcount : (Entry.missing key d.flights.now :: .fruitless key :: d.log).countP
      Entry.isMissing = d.log.countP Entry.isMissing + 1 := by
    simp [List.countP_cons, Entry.isMissing]
  refine ⟨length_recordAbsent_le _ _ _ _ h.bounded, ?_, ?_, ?_, ?_⟩
  · intro key' deadline hthere
    rcases lookup_recordAbsent hthere with ⟨rfl, rfl⟩ | hold
    · exact ⟨d.flights.now, (hremembered key' _).mpr (.inl ⟨rfl, rfl⟩), rfl⟩
    · obtain ⟨at_, hrem, heq⟩ := h.grounded key' deadline hold
      exact ⟨at_, (hremembered key' at_).mpr (.inr hrem), heq⟩
  · intro key' at_ hin
    simp only [List.mem_cons, Entry.missing.injEq, reduceCtorEq, false_or] at hin
    rcases hin with ⟨-, rfl⟩ | hold
    · exact Nat.le_refl _
    · exact h.past key' at_ hold
  · intro hfew
    rw [hcount] at hfew ⊢
    have hsized := h.sized (Nat.le_of_succ_le hfew)
    have hgrows := length_recordAbsent_of_lt limits.last d.flights.now key
      (limits.negativeTtl key) (Nat.lt_of_le_of_lt hsized hfew)
    exact Nat.le_trans hgrows (Nat.succ_le_succ hsized)
  · intro hfew key' at_ httl hrem hlast hgood
    rw [hcount] at hfew
    have hless := Nat.le_of_succ_le hfew
    have hroom := Nat.lt_of_le_of_lt (h.sized hless) hfew
    have hold := (hremembered key' at_).mp hrem
    dsimp only
    by_cases hkey : key' = key
    · subst hkey
      by_cases hrep : d.flights.now + limits.negativeTtl key' ≤ limits.last
      · -- a newer answer for the same key moves its deadline back
        rw [recordAbsent_of_last key' httl hrep hroom, lookup_insert_eq]
        refine ⟨d.flights.now + limits.negativeTtl key', ?_, if_pos rfl⟩
        rcases hold with ⟨-, rfl⟩ | hold
        · exact Nat.le_refl _
        · exact Nat.add_le_add_right (h.past key' at_ (mem_of_remembered hold)) _
      · rw [recordAbsent_past_last key' hrep hroom]
        rcases hold with ⟨-, rfl⟩ | hold
        · exact absurd hlast hrep
        · exact h.complete hless key' at_ httl hold hlast hgood
    · rw [lookup_recordAbsent_of_ne hkey hroom]
      rcases hold with ⟨heq, -⟩ | hold
      · exact absurd heq.symm hkey
      · exact h.complete hless key' at_ httl hold hlast hgood

theorem now_of_moves {s s' : Flights τ} {t : τ} (hm : Moves t s s') : s'.now = s.now := by
  cases hm <;> rfl

theorem now_act (s : Flights τ) (t : τ) (a : Action) : (act s t a).now = s.now := by
  rcases act_cases s t a with heq | hm
  · rw [heq]
  · exact now_of_moves hm

theorem recalls_guarded {d : Discovery τ δ} (h : Recalls limits d) (t : τ) (key : String)
    (e : Event τ δ) : Recalls limits (guarded limits d t key e) := by
  have hlog : ∀ (e : Entry) (stage : τ → Stage δ) (cache : String → Option δ), e ≠ .cleared →
      e.isMissing = false →
      Recalls limits { d with stage := stage, cache := cache, log := e :: d.log } :=
    fun e stage cache hcleared hmissing =>
      recalls_of_quiet h rfl (Nat.le_refl _) (.inr ⟨e, rfl, hcleared, hmissing⟩)
  have hsame : ∀ (stage : τ → Stage δ) (cache : String → Option δ),
      Recalls limits { d with stage := stage, cache := cache } :=
    fun stage cache => recalls_of_quiet h rfl (Nat.le_refl _) (.inl rfl)
  unfold guarded
  split
  · split
    · split
      · exact hsame _ d.cache
      · exact hlog (.asked key) _ d.cache (by simp) rfl
    · exact h
  · split
    · split
      · exact hsame _ d.cache
      · exact recalls_missing h key _
      · exact hlog (.fruitless key) _ d.cache (by simp) rfl
    · exact h
  · split
    · split
      · exact hsame _ _
      · exact hlog (.fruitless key) _ d.cache (by simp) rfl
    · exact h
  · split
    · exact hlog (.fruitless key) _ d.cache (by simp) rfl
    · exact hlog (.fruitless key) _ d.cache (by simp) rfl
    · exact hsame _ d.cache
  · split
    · exact recalls_of_quiet h rfl (Nat.le_of_eq (now_act _ _ _).symm) (.inl rfl)
    · exact h
  · exact h

theorem recalls_step {d : Discovery τ δ} (h : Recalls limits d) (e : Event τ δ) :
    Recalls limits (step limits d e) := by
  have hguarded : ∀ t, Recalls limits (match d.flights.place t with
      | .holding key => guarded limits d t key e
      | _ => d) := by
    intro t
    split
    · exact recalls_guarded h t _ e
    · exact h
  cases e with
  | visit t key wait =>
    simp only [step]
    split
    · split
      · exact recalls_visit h key rfl
      · exact recalls_visit h key (now_act _ _ _)
    · exact h
  | move t a =>
    simp only [step]
    split
    · exact h
    · exact h
    · exact recalls_of_quiet h rfl (Nat.le_of_eq (now_act _ _ _).symm) (.inl rfl)
  | clearAbsent =>
    refine ⟨Nat.zero_le _, by simp [step], ?_, fun _ => Nat.zero_le _, ?_⟩
    · intro key at_ hin
      refine h.past key at_ ?_
      simpa [step] using hin
    · intro _ _ key at_ hrem
      simp [step, remembered_cons_iff] at hrem
  | tick nanos => exact recalls_of_quiet h rfl (Nat.le_add_right _ _) (.inl rfl)
  | fill key doc => exact recalls_of_quiet h rfl (Nat.le_refl _) (.inl rfl)
  | lose key =>
    refine recalls_of_quiet h rfl (Nat.le_refl _) ?_
    simp only [step]
    split
    · exact .inr ⟨.lost key, rfl, by simp, rfl⟩
    · exact .inl rfl
  | _ => exact hguarded _

end Memory

section Main

variable {τ δ : Type*} [DecidableEq τ] (limits : Limits) (now : ℕ) (events : List (Event τ δ))

/-- However any number of readers interleave, one request for a key is under way at most, and
upstream is asked once, and once more for each request that put nothing into the cache and
each time the cache let the entry go. -/
theorem one_request_for_all_readers (key : String) :
    (∀ t t', Requests (run (step limits) (Discovery.start τ δ now) events) t key →
        Requests (run (step limits) (Discovery.start τ δ now) events) t' key → t = t') ∧
      asked (run (step limits) (Discovery.start τ δ now) events) key ≤
        1 + spent (run (step limits) (Discovery.start τ δ now) events) key := by
  have hkept : Lawful (run (step limits) (Discovery.start τ δ now) events).flights ∧
      Accounted (run (step limits) (Discovery.start τ δ now) events) key := by
    refine run_keeps_of_forall (fun _ => True)
      (fun d : Discovery τ δ => Lawful d.flights ∧ Accounted d key) ?_ _ events ?_
      fun _ _ => trivial
    · intro d e h _
      exact ⟨lawful_step d e h.1, accounted_step h.1 h.2 e⟩
    · exact ⟨Lawful.start now, Nat.zero_le _, fun _ => Nat.le_refl _⟩
  refine ⟨fun t t' h h' => hkept.1.alone t t' key h.1 h'.1, ?_⟩
  rw [Nat.add_comm]
  exact hkept.2.1

/-- The memory never outgrows its cap, says of a coordinate that upstream lacks it only while
that answer is younger than its lifetime and the memory was not cleared since, and, as long as
upstream gave no more such answers than the cap, says so all that time. -/
theorem absences_are_remembered (key : String) :
    (run (step limits) (Discovery.start τ δ now) events).absent.entries.length ≤ absentCap ∧
      ((isAbsent (run (step limits) (Discovery.start τ δ now) events).flights.now
          (run (step limits) (Discovery.start τ δ now) events).absent key).1 = true →
        ∃ at_, Remembered (run (step limits) (Discovery.start τ δ now) events).log key at_ ∧
          (run (step limits) (Discovery.start τ δ now) events).flights.now <
            at_ + limits.negativeTtl key) ∧
      ((run (step limits) (Discovery.start τ δ now) events).log.countP Entry.isMissing ≤
          absentCap →
        ∀ at_, Remembered (run (step limits) (Discovery.start τ δ now) events).log key at_ →
          at_ + limits.negativeTtl key ≤ limits.last →
          (run (step limits) (Discovery.start τ δ now) events).flights.now <
            at_ + limits.negativeTtl key →
          (isAbsent (run (step limits) (Discovery.start τ δ now) events).flights.now
            (run (step limits) (Discovery.start τ δ now) events).absent key).1 = true) := by
  have hkept : Recalls limits (run (step limits) (Discovery.start τ δ now) events) :=
    run_keeps_of_forall (fun _ => True) (Recalls limits) (fun _ e h _ => recalls_step h e) _
      events (Recalls.start now) fun _ _ => trivial
  refine ⟨hkept.bounded, ?_, ?_⟩
  · intro hanswer
    obtain ⟨deadline, hthere, hlive⟩ := (isAbsent_iff _ _ key).mp hanswer
    obtain ⟨at_, hrem, rfl⟩ := hkept.grounded key deadline hthere
    exact ⟨at_, hrem, hlive⟩
  · intro hfew at_ hrem hlast hgood
    have httl : limits.negativeTtl key ≠ 0 := by
      intro hzero
      have hpast := hkept.past key at_ (mem_of_remembered hrem)
      omega
    obtain ⟨deadline, hle, hthere⟩ := hkept.complete hfew key at_ httl hrem hlast hgood
    exact (isAbsent_iff _ _ key).mpr ⟨deadline, hthere, Nat.lt_of_lt_of_le hgood hle⟩

/-- A reader whose package upstream does not have. -/
def missingPackage : List (Event Bool Unit) :=
  [.visit false "npm1:nope" 10, .move false .look, .check false, .answer false .notFound,
    .drop false, .move false .signal, .tick 5]

/-- Only one of the registries remembers what upstream lacks. -/
def npmMinute : Limits := ⟨fun key => if key = "npm1:nope" then 60 else 0, 1000⟩

theorem missing_package_is_remembered :
    (isAbsent (run (step npmMinute) (Discovery.start Bool Unit 0) missingPackage).flights.now
        (run (step npmMinute) (Discovery.start Bool Unit 0) missingPackage).absent
        "npm1:nope").1 = true ∧
      ∃ at_, Remembered (run (step npmMinute) (Discovery.start Bool Unit 0) missingPackage).log
          "npm1:nope" at_ ∧
        (run (step npmMinute) (Discovery.start Bool Unit 0) missingPackage).flights.now <
          at_ + npmMinute.negativeTtl "npm1:nope" := by
  have hanswer := (absences_are_remembered npmMinute 0 missingPackage "npm1:nope").2.2
    (by decide) 0 (by decide) (by decide) (by decide)
  exact ⟨hanswer, (absences_are_remembered npmMinute 0 missingPackage "npm1:nope").2.1 hanswer⟩

end Main

end BatleHub.DiscoveryReads
