import Mathlib.Init

/-!
Computations that may fail, taken apart where they succeed: each step before the last
succeeded too, and its result is named.
-/
namespace BatleHub.Lib.Fallible

variable {ε ε' α β : Type}

theorem bind_eq_ok_iff (x : Except ε α) (f : α → Except ε β) (b : β) :
    (x >>= f) = .ok b ↔ ∃ a, x = .ok a ∧ f a = .ok b := by
  cases x with
  | error e =>
    constructor
    · intro h
      cases h
    · rintro ⟨a, ha, -⟩
      cases ha
  | ok a =>
    constructor
    · intro h
      exact ⟨a, rfl, h⟩
    · rintro ⟨a', ha, h⟩
      obtain rfl := Except.ok.inj ha
      exact h

theorem map_eq_ok_iff (f : α → β) (x : Except ε α) (b : β) :
    x.map f = .ok b ↔ ∃ a, x = .ok a ∧ f a = b := by
  cases x with
  | error e => exact iff_of_false nofun (fun ⟨_, ha, _⟩ => nomatch ha)
  | ok a =>
    constructor
    · intro h
      exact ⟨a, rfl, Except.ok.inj h⟩
    · rintro ⟨a', ha, rfl⟩
      obtain rfl := Except.ok.inj ha
      rfl

theorem mapError_eq_ok_iff (g : ε → ε') (x : Except ε α) (a : α) :
    x.mapError g = .ok a ↔ x = .ok a := by
  cases x with
  | error e => exact iff_of_false nofun nofun
  | ok a' =>
    show Except.ok a' = Except.ok a ↔ Except.ok a' = Except.ok a
    rw [Except.ok.injEq, Except.ok.injEq]

theorem elim_eq_ok_iff (e : ε) (x : Option α) (a : α) :
    x.elim (.error e) .ok = Except.ok a ↔ x = some a := by
  cases x with
  | none => exact iff_of_false nofun nofun
  | some a' =>
    show Except.ok a' = Except.ok a ↔ some a' = some a
    rw [Except.ok.injEq, Option.some.injEq]

/-- A traversal of calls that all answer. -/
theorem mapM_eq_ok {f : α → Except ε β} {g : α → β} {xs : List α}
    (h : ∀ x ∈ xs, f x = .ok (g x)) : xs.mapM f = .ok (xs.map g) := by
  induction xs with
  | nil => rfl
  | cons x xs ih =>
    rw [List.mapM_cons, h x List.mem_cons_self, ih fun y hy => h y (List.mem_cons_of_mem _ hy)]
    rfl

/-- What a traversal answers is the answer of one of its calls. -/
theorem exists_of_mem_mapM {f : α → Except ε β} {xs : List α} {ys : List β}
    (h : xs.mapM f = .ok ys) {y : β} (hy : y ∈ ys) : ∃ x ∈ xs, f x = .ok y := by
  induction xs generalizing ys with
  | nil =>
    obtain rfl := Except.ok.inj h
    cases hy
  | cons x xs ih =>
    rw [List.mapM_cons] at h
    obtain ⟨first, hfirst, h⟩ := (bind_eq_ok_iff _ _ _).mp h
    obtain ⟨others, hothers, h⟩ := (bind_eq_ok_iff _ _ _).mp h
    obtain rfl := Except.ok.inj h
    rcases List.mem_cons.mp hy with rfl | hmem
    · exact ⟨x, List.mem_cons_self, hfirst⟩
    · obtain ⟨x', hx', heq⟩ := ih hothers hmem
      exact ⟨x', List.mem_cons_of_mem x hx', heq⟩

end BatleHub.Lib.Fallible
