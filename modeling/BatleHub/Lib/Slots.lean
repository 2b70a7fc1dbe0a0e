import Mathlib.Algebra.BigOperators.Group.List.Basic
import Mathlib.Algebra.Order.Ring.Nat
import Mathlib.Data.Nat.Notation
import Mathlib.Logic.Function.Basic

/-!
Calls in flight, kept in numbered slots. A step sets or frees one slot, so a call of
the new state is the one just set or a call of the old state.
-/
namespace BatleHub.Lib.Slots

variable {τ : Type*} {slots : ℕ → Option τ} {id id' : ℕ}

theorem update_eq_some {new : Option τ} {task : τ}
    (h : Function.update slots id new id' = some task) :
    new = some task ∨ slots id' = some task := by
  by_cases hid : id' = id
  · subst hid
    rw [Function.update_self] at h
    exact .inl h
  · rw [Function.update_of_ne hid] at h
    exact .inr h

theorem eq_some_of_freed {task : τ} (h : Function.update slots id none id' = some task) :
    slots id' = some task := by
  rcases update_eq_some h with hnew | hold
  · simp at hnew
  · exact hold

/-- What the calls of a list hold together, after one of them moved on. -/
theorem sum_map_set {α : Type*} (f : α → ℕ) {calls : List α} {i : ℕ} {old new : α}
    (h : calls[i]? = some old) :
    ((calls.set i new).map f).sum + f old = (calls.map f).sum + f new := by
  induction calls generalizing i with
  | nil => simp at h
  | cons c calls ih =>
    cases i with
    | zero =>
      obtain rfl : c = old := by simpa using h
      rw [List.set_cons_zero, List.map_cons, List.map_cons, List.sum_cons, List.sum_cons]
      omega
    | succ i =>
      have hrest := ih (i := i) (by simpa using h)
      rw [List.set_cons_succ, List.map_cons, List.map_cons, List.sum_cons, List.sum_cons]
      omega

end BatleHub.Lib.Slots
