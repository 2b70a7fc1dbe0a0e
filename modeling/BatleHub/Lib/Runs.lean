import Mathlib.Data.List.Forall2

/-!
Runs of a machine that takes one event at a time. An invariant is proved of one
step and holds after every run; where a step keeps it only under a condition on
the state before it, it holds after every run whose steps all meet the
condition. The condition is checked at each step, so a run can be cut anywhere.
-/
namespace BatleHub.Lib.Runs

variable {σ ε : Type*} (step : σ → ε → σ)

def run (s : σ) (events : List ε) : σ := events.foldl step s

/-- Every event of the run meets `guard` in the state it is taken in. -/
def Guarded (guard : σ → ε → Prop) : σ → List ε → Prop
  | _, [] => True
  | s, e :: rest => guard s e ∧ Guarded guard (step s e) rest

instance decidableGuarded (guard : σ → ε → Prop) [∀ s e, Decidable (guard s e)] :
    (s : σ) → (events : List ε) → Decidable (Guarded step guard s events)
  | _, [] => isTrue trivial
  | s, e :: rest =>
    have := decidableGuarded guard (step s e) rest
    inferInstanceAs (Decidable (guard s e ∧ Guarded step guard (step s e) rest))

variable {step}

theorem run_append (s : σ) (before after : List ε) :
    run step s (before ++ after) = run step (run step s before) after :=
  List.foldl_append

theorem guarded_append (guard : σ → ε → Prop) (s : σ) (before after : List ε) :
    Guarded step guard s (before ++ after) ↔
      Guarded step guard s before ∧ Guarded step guard (run step s before) after := by
  induction before generalizing s with
  | nil => simp [Guarded, run]
  | cons e rest ih =>
    rw [List.cons_append, Guarded, Guarded, ih, and_assoc]
    rfl

/-- A condition on the events alone is a guard. -/
theorem guarded_of_forall (p : ε → Prop) (s : σ) (events : List ε) (h : ∀ e ∈ events, p e) :
    Guarded step (fun _ e => p e) s events := by
  induction events generalizing s with
  | nil => trivial
  | cons e rest ih =>
    refine ⟨h e List.mem_cons_self, ih (step s e) ?_⟩
    intro e' he'
    exact h e' (List.mem_cons_of_mem e he')

/-- A condition on the events alone can join the guard. -/
theorem guarded_and_forall (guard : σ → ε → Prop) (p : ε → Prop) (s : σ) (events : List ε)
    (hguard : Guarded step guard s events) (h : ∀ e ∈ events, p e) :
    Guarded step (fun s e => guard s e ∧ p e) s events := by
  induction events generalizing s with
  | nil => trivial
  | cons e rest ih =>
    refine ⟨⟨hguard.1, h e List.mem_cons_self⟩, ih (step s e) hguard.2 ?_⟩
    intro e' he'
    exact h e' (List.mem_cons_of_mem e he')

/-- The invariant rule: what a guarded step keeps, a guarded run keeps. -/
theorem run_keeps (guard : σ → ε → Prop) (inv : σ → Prop)
    (hstep : ∀ s e, inv s → guard s e → inv (step s e)) (s : σ) (events : List ε) (h : inv s)
    (hguard : Guarded step guard s events) : inv (run step s events) := by
  induction events generalizing s with
  | nil => exact h
  | cons e rest ih => exact ih (step s e) (hstep s e h hguard.1) hguard.2

/-- The rule for a condition on the events alone. -/
theorem run_keeps_of_forall (p : ε → Prop) (inv : σ → Prop)
    (hstep : ∀ s e, inv s → p e → inv (step s e)) (s : σ) (events : List ε) (h : inv s)
    (hall : ∀ e ∈ events, p e) : inv (run step s events) :=
  run_keeps (fun _ e => p e) inv hstep s events h (guarded_of_forall p s events hall)

/-- What a kept invariant says of every step, the run's steps meet. -/
theorem guarded_of_inv (guard guard' : σ → ε → Prop) (inv : σ → Prop)
    (hstep : ∀ s e, inv s → guard s e → inv (step s e))
    (hguard' : ∀ s e, inv s → guard s e → guard' s e) (s : σ) (events : List ε) (h : inv s)
    (hguard : Guarded step guard s events) : Guarded step guard' s events := by
  induction events generalizing s with
  | nil => trivial
  | cons e rest ih =>
    exact ⟨hguard' s e h hguard.1, ih (step s e) (hstep s e h hguard.1) hguard.2⟩

/-- The exact form of the rule: where a step keeps `good` just when it meets the guard, a
run keeps it just when all its steps do. -/
theorem run_keeps_iff (guard : σ → ε → Prop) (inv good : σ → Prop)
    (hinv : ∀ s e, inv s → inv (step s e))
    (hstep : ∀ s e, inv s → (good (step s e) ↔ good s ∧ guard s e)) (s : σ) (events : List ε)
    (h : inv s) : good (run step s events) ↔ good s ∧ Guarded step guard s events := by
  induction events generalizing s with
  | nil => exact (and_iff_left trivial).symm
  | cons e rest ih =>
    have hrest := ih (step s e) (hinv s e h)
    rw [hstep s e h, and_assoc] at hrest
    exact hrest

/-- Where a step out of a good state ends in a good one just when it meets the guard, a run
is good all the way just when all its steps meet it. -/
theorem prefixes_keep_iff (guard : σ → ε → Prop) (inv good : σ → Prop)
    (hinv : ∀ s e, inv s → inv (step s e))
    (hstep : ∀ s e, inv s → good s → (good (step s e) ↔ guard s e)) (s : σ) (events : List ε)
    (h : inv s) (hgood : good s) :
    (∀ before, before <+: events → good (run step s before)) ↔
      Guarded step guard s events := by
  induction events generalizing s with
  | nil =>
    refine ⟨fun _ => trivial, fun _ before hbefore => ?_⟩
    rw [List.prefix_nil.mp hbefore]
    exact hgood
  | cons e rest ih =>
    constructor
    · intro hall
      have hnext : good (step s e) := hall [e] ⟨rest, rfl⟩
      refine ⟨(hstep s e h hgood).mp hnext, (ih (step s e) (hinv s e h) hnext).mp ?_⟩
      intro before hbefore
      exact hall (e :: before) ((List.prefix_cons_inj e).mpr hbefore)
    · rintro ⟨hguard, hrest⟩ before hbefore
      have hnext : good (step s e) := (hstep s e h hgood).mpr hguard
      rcases List.prefix_cons_iff.mp hbefore with rfl | ⟨before', rfl, hbefore'⟩
      · exact hgood
      · exact (ih (step s e) (hinv s e h) hnext).mpr hrest before' hbefore'

/-- The rule for two runs: events that are alike take states that are alike to states that
are. -/
theorem run_relates (rel : σ → σ → Prop) (alike : ε → ε → Prop)
    (hstep : ∀ s t e f, rel s t → alike e f → rel (step s e) (step t f)) (s t : σ)
    {events events' : List ε} (h : rel s t) (halike : List.Forall₂ alike events events') :
    rel (run step s events) (run step t events') := by
  induction halike generalizing s t with
  | nil => exact h
  | cons hhead _ ih => exact ih (step s _) (step t _) (hstep s t _ _ h hhead)

end BatleHub.Lib.Runs
