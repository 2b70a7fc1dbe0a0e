import Mathlib.Data.List.TakeWhile

/-!
A list whose leading part satisfies a predicate and whose remainder stops it. There is
only one place where a list can be cut so.
-/
namespace BatleHub.Lib.Spans

variable {α : Type*} {p : α → Bool}

/-- The predicate does not go on into `rest`. -/
def Stops (p : α → Bool) (rest : List α) : Prop := ∀ a ∈ rest.head?, p a = false

theorem stops_nil : Stops p [] := by
  intro a ha
  simp at ha

theorem stops_cons {a : α} {rest : List α} (h : p a = false) : Stops p (a :: rest) := by
  intro b hb
  rw [List.head?_cons, Option.mem_some_iff] at hb
  exact hb ▸ h

theorem takeWhile_append {l rest : List α} (hl : ∀ a ∈ l, p a = true) (hstop : Stops p rest) :
    (l ++ rest).takeWhile p = l := by
  rw [List.takeWhile_append_of_pos hl]
  cases rest with
  | nil => rw [List.takeWhile_nil, List.append_nil]
  | cons a rest =>
    have ha : ¬ p a = true := Bool.not_eq_true (p a) ▸ hstop a rfl
    rw [List.takeWhile_cons_of_neg ha, List.append_nil]

theorem dropWhile_append {l rest : List α} (hl : ∀ a ∈ l, p a = true) (hstop : Stops p rest) :
    (l ++ rest).dropWhile p = rest := by
  rw [List.dropWhile_append_of_pos hl]
  cases rest with
  | nil => rfl
  | cons a rest =>
    have ha : ¬ p a = true := Bool.not_eq_true (p a) ▸ hstop a rfl
    rw [List.dropWhile_cons_of_neg ha]

/-- The one cut. -/
theorem append_inj {x y r s : List α} (hx : ∀ a ∈ x, p a = true) (hy : ∀ a ∈ y, p a = true)
    (hr : Stops p r) (hs : Stops p s) (h : x ++ r = y ++ s) : x = y ∧ r = s := by
  constructor
  · calc x = (x ++ r).takeWhile p := (takeWhile_append hx hr).symm
      _ = (y ++ s).takeWhile p := by rw [h]
      _ = y := takeWhile_append hy hs
  · calc r = (x ++ r).dropWhile p := (dropWhile_append hx hr).symm
      _ = (y ++ s).dropWhile p := by rw [h]
      _ = s := dropWhile_append hy hs

end BatleHub.Lib.Spans
