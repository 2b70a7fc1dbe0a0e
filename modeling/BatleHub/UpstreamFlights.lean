import BatleHub.Lib.AssocMap
import BatleHub.Lib.Runs
import Mathlib.Logic.Function.Basic

/-!
The single flight of the discovery read. Readers of one coordinate race for its entry in
the map of reads in progress; the one that puts it there holds the guard, the others wait
on the entry's notify. Every step between two locks is a step of its own here, so that
readers interleave wherever the code lets them, and the guard's drop is two steps: the
entry goes first, and its notify is signalled after the lock is free again.
-/
namespace BatleHub.UpstreamFlights

open Lib.AssocMap Lib.Runs

/-- Where a reader stands: outside, inside `claim`, or with the guard that it returned. -/
inductive Place where
  | outside
  | entered (key : String) (deadline : ℕ)
  /-- The entry was there; its notify is cloned and nothing is registered on it yet. -/
  | found (key : String) (deadline notify : ℕ)
  /-- Enabled on the notify, before the second look at the map. -/
  | registered (key : String) (deadline notify : ℕ) (woken : Bool)
  /-- Awaiting the notify under the timeout. -/
  | parked (key : String) (deadline notify : ℕ) (woken : Bool)
  | resumed (key : String) (deadline : ℕ)
  | holding (key : String)
  /-- The guard's drop has taken the entry out and has not signalled it yet. -/
  | releasing (notify : ℕ)
  deriving DecidableEq, Repr

/-- `in_flight`, with each `Notify` known by the order of its allocation. -/
structure Flights (τ : Type*) where
  inFlight : Assoc String ℕ
  nextNotify : ℕ
  now : ℕ
  place : τ → Place

def Flights.start (τ : Type*) (now : ℕ) : Flights τ := ⟨∅, 0, now, fun _ => .outside⟩

/-- What a reader does next. -/
inductive Action where
  | claim (key : String) (wait : ℕ)
  | look
  | enable
  | lookAgain
  | resume
  | giveUp
  | reread
  /-- The reader's future is dropped where it waits. -/
  | abandon
  | drop
  | signal
  deriving DecidableEq, Repr

inductive Event (τ : Type*) where
  | act (t : τ) (a : Action)
  | tick (nanos : ℕ)

/-- `notify_waiters` reaches whoever is registered on the notify. -/
def wakeOn (notify : ℕ) : Place → Place
  | .registered key deadline n woken => .registered key deadline n (woken || decide (n = notify))
  | .parked key deadline n woken => .parked key deadline n (woken || decide (n = notify))
  | place => place

variable {τ : Type*} [DecidableEq τ]

def Flights.put (s : Flights τ) (t : τ) (place : Place) : Flights τ :=
  { s with place := Function.update s.place t place }

/-- A step of a reader that stands where the step starts; elsewhere it does nothing. -/
def act (s : Flights τ) (t : τ) (a : Action) : Flights τ :=
  match s.place t, a with
  | .outside, .claim key wait => s.put t (.entered key (s.now + wait))
  | .entered key deadline, .look =>
    match s.inFlight.lookup key with
    | some notify => s.put t (.found key deadline notify)
    | none =>
      { s.put t (.holding key) with
        inFlight := s.inFlight.insert key s.nextNotify
        nextNotify := s.nextNotify + 1 }
  | .found key deadline notify, .enable => s.put t (.registered key deadline notify false)
  | .registered key deadline notify woken, .lookAgain =>
    match s.inFlight.lookup key with
    | none => s.put t .outside
    | some current =>
      if current = notify then s.put t (.parked key deadline notify woken)
      else s.put t (.entered key deadline)
  | .parked key deadline _ true, .resume => s.put t (.resumed key deadline)
  -- the notify is polled before the timer
  | .parked _ deadline _ false, .giveUp => if deadline ≤ s.now then s.put t .outside else s
  | .parked _ _ _ _, .abandon => s.put t .outside
  | .resumed key deadline, .reread =>
    match s.inFlight.lookup key with
    | none => s.put t .outside
    | some _ => s.put t (.entered key deadline)
  | .holding key, .drop =>
    match s.inFlight.lookup key with
    | some notify => { s.put t (.releasing notify) with inFlight := s.inFlight.erase key }
    | none => s.put t .outside
  | .releasing notify, .signal =>
    { s with place := Function.update (fun t' => wakeOn notify (s.place t')) t .outside }
  | _, _ => s

def step (s : Flights τ) : Event τ → Flights τ
  | .act t a => act s t a
  | .tick nanos => { s with now := s.now + nanos }

section Moves

/-- The key a reader waits for, from its call of `claim` to the answer. -/
def Place.claims : Place → Option String
  | .entered key _ | .found key _ _ | .registered key _ _ _ | .parked key _ _ _
  | .resumed key _ => some key
  | _ => none

/-- A waiter that nothing has signalled yet. -/
def Place.Asleep (place : Place) (key : String) (notify : ℕ) : Prop :=
  ∃ deadline, place = .parked key deadline notify false

/-- Every way in which the reads move. -/
inductive Moves (t : τ) (s : Flights τ) : Flights τ → Prop
  /-- A step that takes no guard, frees none and starts no wait. -/
  | quiet (place : Place) (hfree : ∀ key, s.place t ≠ .holding key)
      (hquiet : ∀ n, s.place t ≠ .releasing n) (hheld : ∀ key, place ≠ .holding key)
      (hrel : ∀ n, place ≠ .releasing n) (hawake : ∀ key n, ¬ place.Asleep key n) :
      Moves t s (s.put t place)
  | take (key : String) (deadline : ℕ) (hat : s.place t = .entered key deadline)
      (hfree : s.inFlight.lookup key = none) :
      Moves t s { s.put t (.holding key) with
        inFlight := s.inFlight.insert key s.nextNotify
        nextNotify := s.nextNotify + 1 }
  | park (key : String) (deadline notify : ℕ) (woken : Bool)
      (hat : s.place t = .registered key deadline notify woken)
      (hsame : s.inFlight.lookup key = some notify) :
      Moves t s (s.put t (.parked key deadline notify woken))
  | drop (key : String) (notify : ℕ) (hat : s.place t = .holding key)
      (hthere : s.inFlight.lookup key = some notify) :
      Moves t s { s.put t (.releasing notify) with inFlight := s.inFlight.erase key }
  | gone (key : String) (hat : s.place t = .holding key)
      (hgone : s.inFlight.lookup key = none) : Moves t s (s.put t .outside)
  | signal (notify : ℕ) (hat : s.place t = .releasing notify) :
      Moves t s
        { s with place := Function.update (fun t' => wakeOn notify (s.place t')) t .outside }

theorem quiet_of_claims {s : Flights τ} {t : τ} (key : String) (hat : (s.place t).claims = some key)
    (place : Place) (hheld : ∀ key, place ≠ .holding key) (hrel : ∀ n, place ≠ .releasing n)
    (hawake : ∀ key n, ¬ place.Asleep key n) : Moves t s (s.put t place) := by
  refine .quiet place ?_ ?_ hheld hrel hawake
  · intro key' hholds
    rw [hholds] at hat
    exact absurd hat (by simp [Place.claims])
  · intro n hreleases
    rw [hreleases] at hat
    exact absurd hat (by simp [Place.claims])

/-- A reader's step moves it one of these ways, or not at all. -/
theorem act_cases (s : Flights τ) (t : τ) (a : Action) : act s t a = s ∨ Moves t s (act s t a) := by
  unfold act
  split
  · rename_i key wait hat
    exact .inr (.quiet _ (by simp [hat]) (by simp [hat]) (by simp) (by simp)
      (by simp [Place.Asleep]))
  · rename_i key deadline hat
    split
    · exact .inr (quiet_of_claims key (by simp [hat, Place.claims]) _ (by simp) (by simp)
        (by simp [Place.Asleep]))
    · rename_i hfree
      exact .inr (.take key deadline hat hfree)
  · rename_i key deadline notify hat
    exact .inr (quiet_of_claims key (by simp [hat, Place.claims]) _ (by simp) (by simp)
      (by simp [Place.Asleep]))
  · rename_i key deadline notify woken hat
    have hclaims : (s.place t).claims = some key := by simp [hat, Place.claims]
    split
    · exact .inr (quiet_of_claims key hclaims _ (by simp) (by simp) (by simp [Place.Asleep]))
    · rename_i current hthere
      split
      · rename_i hsame
        exact .inr (.park key deadline notify woken hat (hsame ▸ hthere))
      · exact .inr (quiet_of_claims key hclaims _ (by simp) (by simp) (by simp [Place.Asleep]))
  · rename_i key deadline notify hat
    exact .inr (quiet_of_claims key (by simp [hat, Place.claims]) _ (by simp) (by simp)
      (by simp [Place.Asleep]))
  · rename_i key deadline notify hat
    split
    · exact .inr (quiet_of_claims key (by simp [hat, Place.claims]) _ (by simp) (by simp)
        (by simp [Place.Asleep]))
    · exact .inl rfl
  · rename_i key deadline notify woken hat
    exact .inr (quiet_of_claims key (by simp [hat, Place.claims]) _ (by simp) (by simp)
      (by simp [Place.Asleep]))
  · rename_i key deadline hat
    have hclaims : (s.place t).claims = some key := by simp [hat, Place.claims]
    split
    · exact .inr (quiet_of_claims key hclaims _ (by simp) (by simp) (by simp [Place.Asleep]))
    · exact .inr (quiet_of_claims key hclaims _ (by simp) (by simp) (by simp [Place.Asleep]))
  · rename_i key hat
    split
    · rename_i notify hthere
      exact .inr (.drop key notify hat hthere)
    · rename_i hgone
      exact .inr (.gone key hat hgone)
  · rename_i notify hat
    exact .inr (.signal notify hat)
  · exact .inl rfl

end Moves

section Laws

/-- At most one guard of a key, the key in the map just while there is one, and whoever
waits for a signal waits for one that is coming. -/
structure Lawful (s : Flights τ) : Prop where
  held : ∀ key, (s.inFlight.lookup key).isSome ↔ ∃ t, s.place t = .holding key
  alone : ∀ t t' key, s.place t = .holding key → s.place t' = .holding key → t = t'
  heard : ∀ t key notify, (s.place t).Asleep key notify →
    s.inFlight.lookup key = some notify ∨ ∃ t', s.place t' = .releasing notify

omit [DecidableEq τ] in
theorem Lawful.start (now : ℕ) : Lawful (Flights.start τ now) := by
  refine ⟨?_, ?_, ?_⟩
  · simp [Flights.start]
  · simp [Flights.start]
  · rintro t key notify ⟨deadline, h⟩
    cases h

@[simp]
theorem put_place (s : Flights τ) (t t' : τ) (place : Place) :
    (s.put t place).place t' = if t' = t then place else s.place t' :=
  Function.update_apply s.place t place t'

@[simp]
theorem put_inFlight (s : Flights τ) (t : τ) (place : Place) :
    (s.put t place).inFlight = s.inFlight := rfl

/-- A signal moves nobody into the guard or out of it. -/
theorem wakeOn_eq_holding_iff (notify : ℕ) (place : Place) (key : String) :
    wakeOn notify place = .holding key ↔ place = .holding key := by
  cases place <;> simp [wakeOn]

theorem wakeOn_eq_releasing_iff (notify n : ℕ) (place : Place) :
    wakeOn notify place = .releasing n ↔ place = .releasing n := by
  cases place <;> simp [wakeOn]

/-- Who is still asleep after a signal was asleep on another notify. -/
theorem asleep_of_wakeOn {notify n : ℕ} {place : Place} {key : String}
    (h : (wakeOn notify place).Asleep key n) : place.Asleep key n ∧ n ≠ notify := by
  obtain ⟨deadline, h⟩ := h
  cases place with
  | parked key' deadline' n' woken =>
    simp only [wakeOn, Place.parked.injEq, Bool.or_eq_false_iff, decide_eq_false_iff_not] at h
    obtain ⟨rfl, rfl, rfl, rfl, hne⟩ := h
    exact ⟨⟨deadline', rfl⟩, hne⟩
  | _ => simp [wakeOn] at h

/-- A quiet step leaves the guards with their holders. -/
theorem holding_put_iff {s : Flights τ} {t : τ} {place : Place}
    (hfree : ∀ key, s.place t ≠ .holding key) (hheld : ∀ key, place ≠ .holding key) (t' : τ)
    (key : String) : (s.put t place).place t' = .holding key ↔ s.place t' = .holding key := by
  rw [put_place]
  split
  · rename_i heq
    subst heq
    exact iff_of_false (hheld key) (hfree key)
  · rfl

theorem lawful_put {s : Flights τ} (h : Lawful s) {t : τ} {place : Place}
    (hfree : ∀ key, s.place t ≠ .holding key) (hquiet : ∀ n, s.place t ≠ .releasing n)
    (hheld : ∀ key, place ≠ .holding key)
    (hheard : ∀ key n, place.Asleep key n → s.inFlight.lookup key = some n) :
    Lawful (s.put t place) := by
  have hholds := holding_put_iff hfree hheld
  refine ⟨?_, ?_, ?_⟩
  · intro key
    rw [put_inFlight, h.held key]
    exact exists_congr fun t' => (hholds t' key).symm
  · intro t₁ t₂ key h₁ h₂
    exact h.alone t₁ t₂ key ((hholds t₁ key).mp h₁) ((hholds t₂ key).mp h₂)
  · intro t' key notify hasleep
    rw [put_place] at hasleep
    split at hasleep
    · exact .inl (hheard key notify hasleep)
    · rcases h.heard t' key notify hasleep with hthere | ⟨t'', hrel⟩
      · exact .inl hthere
      · refine .inr ⟨t'', ?_⟩
        have hne : t'' ≠ t := by
          rintro rfl
          exact hquiet notify hrel
        rw [put_place, if_neg hne]
        exact hrel

theorem lawful_take {s : Flights τ} (h : Lawful s) {t : τ} {key : String} {deadline : ℕ}
    (hat : s.place t = .entered key deadline) (hfree : s.inFlight.lookup key = none) :
    Lawful { s.put t (.holding key) with
      inFlight := s.inFlight.insert key s.nextNotify
      nextNotify := s.nextNotify + 1 } := by
  have hnobody : ∀ t', s.place t' ≠ .holding key := by
    intro t' hholds
    have hsome := (h.held key).mpr ⟨t', hholds⟩
    rw [hfree] at hsome
    cases hsome
  refine ⟨?_, ?_, ?_⟩
  · intro key'
    simp only [lookup_insert_eq, put_place]
    by_cases hkey : key' = key
    · subst hkey
      simp only [if_true, Option.isSome_some, true_iff]
      exact ⟨t, if_pos rfl⟩
    · rw [if_neg hkey, h.held key']
      refine exists_congr fun t' => ?_
      split
      · rename_i heq
        subst heq
        rw [hat]
        simp [Ne.symm hkey]
      · rfl
  · intro t₁ t₂ key' h₁ h₂
    simp only [put_place] at h₁ h₂
    split at h₁ <;> split at h₂
    · rename_i heq₁ heq₂
      exact heq₁.trans heq₂.symm
    · cases h₁
      exact absurd h₂ (hnobody t₂)
    · cases h₂
      exact absurd h₁ (hnobody t₁)
    · exact h.alone t₁ t₂ key' h₁ h₂
  · intro t' key' notify hasleep
    simp only [put_place] at hasleep
    split at hasleep
    · obtain ⟨deadline', hcase⟩ := hasleep
      cases hcase
    · rcases h.heard t' key' notify hasleep with hthere | ⟨t'', hrel⟩
      · left
        rw [lookup_insert_eq, if_neg]
        · exact hthere
        · rintro rfl
          rw [hfree] at hthere
          cases hthere
      · refine .inr ⟨t'', ?_⟩
        have hne : t'' ≠ t := by
          rintro rfl
          rw [hat] at hrel
          cases hrel
        simp only [put_place, if_neg hne]
        exact hrel

theorem lawful_drop {s : Flights τ} (h : Lawful s) {t : τ} {key : String} {notify : ℕ}
    (hat : s.place t = .holding key) (hthere : s.inFlight.lookup key = some notify) :
    Lawful { s.put t (.releasing notify) with inFlight := s.inFlight.erase key } := by
  refine ⟨?_, ?_, ?_⟩
  · intro key'
    simp only [lookup_erase_eq, put_place]
    by_cases hkey : key' = key
    · subst hkey
      simp only [if_true, Option.isSome_none, Bool.false_eq_true, false_iff, not_exists]
      intro t' hholds
      split at hholds
      · cases hholds
      · rename_i hne
        exact hne (h.alone t' t key' hholds hat)
    · rw [if_neg hkey, h.held key']
      refine exists_congr fun t' => ?_
      split
      · rename_i heq
        subst heq
        rw [hat]
        simp [Ne.symm hkey]
      · rfl
  · intro t₁ t₂ key' h₁ h₂
    simp only [put_place] at h₁ h₂
    split at h₁ <;> split at h₂
    · cases h₁
    · cases h₁
    · cases h₂
    · exact h.alone t₁ t₂ key' h₁ h₂
  · intro t' key' n hasleep
    simp only [put_place] at hasleep
    split at hasleep
    · obtain ⟨deadline', hcase⟩ := hasleep
      cases hcase
    · rcases h.heard t' key' n hasleep with hold | ⟨t'', hrel⟩
      · by_cases hkey : key' = key
        · -- the entry that goes is the one this waiter sleeps on
          subst hkey
          obtain rfl : notify = n := Option.some.inj (hthere.symm.trans hold)
          exact .inr ⟨t, by simp⟩
        · left
          rw [lookup_erase_eq, if_neg hkey]
          exact hold
      · refine .inr ⟨t'', ?_⟩
        have hne : t'' ≠ t := by
          rintro rfl
          rw [hat] at hrel
          cases hrel
        simp only [put_place, if_neg hne]
        exact hrel

theorem lawful_signal {s : Flights τ} (h : Lawful s) {t : τ} {notify : ℕ}
    (hat : s.place t = .releasing notify) :
    Lawful { s with
      place := Function.update (fun t' => wakeOn notify (s.place t')) t .outside } := by
  have hholds : ∀ t' key,
      Function.update (fun t' => wakeOn notify (s.place t')) t .outside t' = .holding key ↔
        s.place t' = .holding key := by
    intro t' key
    rw [Function.update_apply]
    split
    · rename_i heq
      subst heq
      rw [hat]
      simp
    · exact wakeOn_eq_holding_iff notify (s.place t') key
  refine ⟨?_, ?_, ?_⟩
  · intro key
    rw [h.held key]
    exact exists_congr fun t' => (hholds t' key).symm
  · intro t₁ t₂ key h₁ h₂
    exact h.alone t₁ t₂ key ((hholds t₁ key).mp h₁) ((hholds t₂ key).mp h₂)
  · intro t' key n hasleep
    dsimp only at hasleep
    rw [Function.update_apply] at hasleep
    split at hasleep
    · obtain ⟨deadline, hcase⟩ := hasleep
      cases hcase
    · obtain ⟨hbefore, hne⟩ := asleep_of_wakeOn hasleep
      rcases h.heard t' key n hbefore with hthere | ⟨t'', hrel⟩
      · exact .inl hthere
      · refine .inr ⟨t'', ?_⟩
        have hother : t'' ≠ t := by
          rintro rfl
          rw [hat, Place.releasing.injEq] at hrel
          exact hne hrel.symm
        dsimp only
        rw [Function.update_of_ne hother]
        exact (wakeOn_eq_releasing_iff notify n (s.place t'')).mpr hrel

theorem lawful_moves {s s' : Flights τ} {t : τ} (h : Lawful s) (hm : Moves t s s') :
    Lawful s' := by
  cases hm with
  | quiet place hfree hquiet hheld hrel hawake =>
    exact lawful_put h hfree hquiet hheld fun key n hasleep => absurd hasleep (hawake key n)
  | take key deadline hat hfree => exact lawful_take h hat hfree
  | park key deadline notify woken hat hsame =>
    refine lawful_put h (by simp [hat]) (by simp [hat]) (by simp) ?_
    rintro key' n ⟨deadline', hcase⟩
    cases hcase
    exact hsame
  | drop key notify hat hthere => exact lawful_drop h hat hthere
  | gone key hat hgone =>
    have hsome := (h.held key).mpr ⟨t, hat⟩
    rw [hgone] at hsome
    cases hsome
  | signal notify hat => exact lawful_signal h hat

theorem lawful_step {s : Flights τ} (h : Lawful s) (e : Event τ) : Lawful (step s e) := by
  cases e with
  | tick nanos => exact ⟨h.held, h.alone, h.heard⟩
  | act t a =>
    rcases act_cases s t a with heq | hm
    · rw [step, heq]
      exact h
    · exact lawful_moves h hm

theorem lawful_run (now : ℕ) (events : List (Event τ)) :
    Lawful (run step (Flights.start τ now) events) :=
  run_keeps_of_forall (fun _ => True) Lawful (fun _ e h _ => lawful_step h e) _ events
    (Lawful.start now) fun _ _ => trivial

end Laws

section Progress

/-- The steps that bring a reader back from `claim` when nobody holds the key any more. -/
def Place.ownSteps : Place → List Action
  | .entered _ _ => [.look]
  | .found _ _ _ => [.enable, .lookAgain]
  | .registered _ _ _ _ => [.lookAgain]
  | .parked _ _ _ _ => [.resume, .reread]
  | .resumed _ _ => [.reread]
  | _ => []

omit [DecidableEq τ] in
theorem not_asleep_of_quiet {s : Flights τ} (h : Lawful s) {key : String}
    (hfree : ∀ t, s.place t ≠ .holding key) (hquiet : ∀ t n, s.place t ≠ .releasing n) (t : τ)
    (notify : ℕ) : ¬ (s.place t).Asleep key notify := by
  intro hasleep
  rcases h.heard t key notify hasleep with hthere | ⟨t', hrel⟩
  · obtain ⟨t', hholds⟩ := (h.held key).mp (by rw [hthere]; rfl)
    exact hfree t' hholds
  · exact hquiet t' notify hrel

omit [DecidableEq τ] in
theorem lookup_of_free {s : Flights τ} (h : Lawful s) {key : String}
    (hfree : ∀ t, s.place t ≠ .holding key) : s.inFlight.lookup key = none := by
  cases hthere : s.inFlight.lookup key with
  | none => rfl
  | some notify =>
    obtain ⟨t, hholds⟩ := (h.held key).mp (by rw [hthere]; rfl)
    exact absurd hholds (hfree t)

/-- With nobody holding the key and no drop under way, `claim` returns without waiting. -/
theorem returns_of_free {s : Flights τ} (h : Lawful s) {t : τ} {key : String}
    (hclaims : (s.place t).claims = some key) (hfree : ∀ t, s.place t ≠ .holding key)
    (hquiet : ∀ t n, s.place t ≠ .releasing n) :
    (run step s ((s.place t).ownSteps.map (.act t))).place t = .outside ∨
      (run step s ((s.place t).ownSteps.map (.act t))).place t = .holding key := by
  have hnone := lookup_of_free h hfree
  cases hat : s.place t with
  | entered key' deadline =>
    obtain rfl : key' = key := by simpa [hat, Place.claims] using hclaims
    right
    simp [Place.ownSteps, run, step, act, hat, hnone]
  | found key' deadline notify =>
    obtain rfl : key' = key := by simpa [hat, Place.claims] using hclaims
    left
    simp [Place.ownSteps, run, step, act, hat, hnone]
  | registered key' deadline notify woken =>
    obtain rfl : key' = key := by simpa [hat, Place.claims] using hclaims
    left
    simp [Place.ownSteps, run, step, act, hat, hnone]
  | parked key' deadline notify woken =>
    obtain rfl : key' = key := by simpa [hat, Place.claims] using hclaims
    cases woken with
    | false => exact absurd ⟨deadline, hat⟩ (not_asleep_of_quiet h hfree hquiet t notify)
    | true =>
      left
      simp [Place.ownSteps, run, step, act, hat, hnone]
  | resumed key' deadline =>
    obtain rfl : key' = key := by simpa [hat, Place.claims] using hclaims
    left
    simp [Place.ownSteps, run, step, act, hat, hnone]
  | _ => simp [hat, Place.claims] at hclaims

end Progress

section Main

variable (now : ℕ) (events : List (Event τ))

/-- However the readers interleave, one guard of a key is out at most, and the map holds the
key just while it is: no key stays in flight after its guard. -/
theorem one_guard_for_each_key (key : String) :
    (∀ t t', (run step (Flights.start τ now) events).place t = .holding key →
        (run step (Flights.start τ now) events).place t' = .holding key → t = t') ∧
      (((run step (Flights.start τ now) events).inFlight.lookup key).isSome ↔
        ∃ t, (run step (Flights.start τ now) events).place t = .holding key) :=
  ⟨fun t t' => (lawful_run now events).alone t t' key, (lawful_run now events).held key⟩

/-- No wake-up is lost: a reader that sleeps has a guard's drop still to come that signals
its notify, and once the guards of its key are dropped and signalled the next steps of
`claim`, two at most, bring it out, without its timer and without being given up. -/
theorem wakeups_arrive (t : τ) (key : String) :
    (∀ notify, ((run step (Flights.start τ now) events).place t).Asleep key notify →
        (run step (Flights.start τ now) events).inFlight.lookup key = some notify ∧
            (∃ t', (run step (Flights.start τ now) events).place t' = .holding key) ∨
          ∃ t', (run step (Flights.start τ now) events).place t' = .releasing notify) ∧
      (((run step (Flights.start τ now) events).place t).claims = some key →
        (∀ t', (run step (Flights.start τ now) events).place t' ≠ .holding key) →
        (∀ t' n, (run step (Flights.start τ now) events).place t' ≠ .releasing n) →
        ∀ own, own = ((run step (Flights.start τ now) events).place t).ownSteps →
          own.length ≤ 2 ∧ .abandon ∉ own ∧ .giveUp ∉ own ∧
          ((run step (Flights.start τ now) (events ++ own.map (.act t))).place t = .outside ∨
            (run step (Flights.start τ now) (events ++ own.map (.act t))).place t =
              .holding key)) := by
  have hlaw := lawful_run now events
  constructor
  · intro notify hasleep
    rcases hlaw.heard t key notify hasleep with hthere | hrel
    · exact .inl ⟨hthere, (hlaw.held key).mp (by rw [hthere]; rfl)⟩
    · exact .inr hrel
  · rintro hclaims hfree hquiet own rfl
    refine ⟨?_, ?_, ?_, ?_⟩
    · cases (run step (Flights.start τ now) events).place t <;> simp [Place.ownSteps]
    · cases (run step (Flights.start τ now) events).place t <;> simp [Place.ownSteps]
    · cases (run step (Flights.start τ now) events).place t <;> simp [Place.ownSteps]
    · rw [run_append]
      exact returns_of_free hlaw hclaims hfree hquiet

/-- A reader that is woken, from the call of the first one to its own return. -/
def wokenReader : List (Event Bool) :=
  [.act false (.claim "npm1:express" 10), .act false .look, .act true (.claim "npm1:express" 10),
    .act true .look, .act true .enable, .act true .lookAgain, .act false .drop,
    .act false .signal]

/-- It sleeps on the first reader's notify until that one's drop, and then it returns. -/
theorem woken_reader_returns :
    (∃ t', (run step (Flights.start Bool 0) (wokenReader.take 6)).place t' =
        .holding "npm1:express") ∧
      ((run step (Flights.start Bool 0)
          (wokenReader ++ [.act true .resume, .act true .reread])).place true = .outside ∨
        (run step (Flights.start Bool 0)
          (wokenReader ++ [.act true .resume, .act true .reread])).place true =
            .holding "npm1:express") := by
  constructor
  · rcases (wakeups_arrive 0 (wokenReader.take 6) true "npm1:express").1 0 ⟨10, by decide⟩ with
      hthere | hrel
    · exact hthere.2
    · exact absurd hrel (by decide)
  · have hat : ∀ t', (run step (Flights.start Bool 0) wokenReader).place t' =
        if t' then .parked "npm1:express" 10 0 true else .outside := by decide
    refine ((wakeups_arrive 0 wokenReader true "npm1:express").2 (by decide) (by decide) ?_
      [.resume, .reread] (by rw [hat]; rfl)).2.2.2
    intro t' n
    rw [hat]
    split <;> simp

end Main

end BatleHub.UpstreamFlights
