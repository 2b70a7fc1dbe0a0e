import Mathlib.Data.List.Basic
import Mathlib.Data.List.Induction
import Mathlib.Order.Basic

/-!
The greatest element of a list under a comparison, and the last one where several are equally
great. It stays the greatest when others leave the list.
-/
namespace BatleHub.Lib.LastMax

variable {α : Type*} (cmp : α → α → Ordering)

/-- The greater of two, the second where they are equally great. -/
def later (best : Option α) (x : α) : Option α :=
  match best with
  | none => some x
  | some y => if cmp y x = .gt then some y else some x

/-- `Iterator::max_by`. -/
def lastMax (l : List α) : Option α := l.foldl (later cmp) none

theorem lastMax_concat (l : List α) (x : α) :
    lastMax cmp (l ++ [x]) = later cmp (lastMax cmp l) x := by
  rw [lastMax, List.foldl_append]
  rfl

theorem later_cases (best : Option α) (x : α) :
    later cmp best x = best ∨ later cmp best x = some x := by
  cases best with
  | none => exact .inr rfl
  | some y =>
    rw [later]
    split
    · exact .inl rfl
    · exact .inr rfl

theorem mem_of_lastMax {l : List α} {m : α} (h : lastMax cmp l = some m) : m ∈ l := by
  induction l using List.reverseRecOn generalizing m with
  | nil => cases h
  | append_singleton l x ih =>
    rw [lastMax_concat] at h
    rcases later_cases cmp (lastMax cmp l) x with heq | heq
    · rw [heq] at h
      exact List.mem_append_left _ (ih h)
    · rw [heq] at h
      exact List.mem_append_right _ (by simpa using h.symm)

theorem lastMax_eq_none_iff (l : List α) : lastMax cmp l = none ↔ l = [] := by
  constructor
  · intro h
    induction l using List.reverseRecOn with
    | nil => rfl
    | append_singleton l x ih =>
      rw [lastMax_concat] at h
      rcases later_cases cmp (lastMax cmp l) x with heq | heq
      · rw [heq] at h
        rw [ih h] at heq
        cases heq
      · rw [heq] at h
        cases h
  · rintro rfl
    rfl

/-- Elements compared by something that is read off them. -/
theorem transCmp_on {β : Type*} (cmp : β → β → Ordering) [Std.TransCmp cmp] (f : α → β) :
    Std.TransCmp fun a b => cmp (f a) (f b) where
  eq_swap := by
    intro a b
    exact @Std.OrientedCmp.eq_swap _ cmp _ (f a) (f b)
  isLE_trans := by
    intro a b c hab hbc
    exact @Std.TransCmp.isLE_trans _ cmp _ (f a) (f b) (f c) hab hbc

/-- None before it is greater, and all behind it are smaller. -/
def IsLastMax (l : List α) (m : α) : Prop :=
  ∃ before after, l = before ++ m :: after ∧ (∀ x ∈ before, cmp x m ≠ .gt) ∧
    ∀ y ∈ after, cmp m y = .gt

theorem IsLastMax.lastMax_eq {l : List α} {m : α} (h : IsLastMax cmp l m) :
    lastMax cmp l = some m := by
  obtain ⟨before, after, rfl, hbefore, hafter⟩ := h
  induction after using List.reverseRecOn with
  | nil =>
    rw [lastMax_concat]
    cases hbest : lastMax cmp before with
    | none => rfl
    | some y => exact if_neg (hbefore y (mem_of_lastMax cmp hbest))
  | append_singleton after y ih =>
    have hlast : before ++ m :: (after ++ [y]) = before ++ m :: after ++ [y] := by simp
    rw [hlast, lastMax_concat, ih fun x hx => hafter x (List.mem_append_left _ hx)]
    exact if_pos (hafter y (by simp))

theorem IsLastMax.filter {l : List α} {m : α} (h : IsLastMax cmp l m) {p : α → Bool}
    (hp : p m = true) : IsLastMax cmp (l.filter p) m := by
  obtain ⟨before, after, rfl, hbefore, hafter⟩ := h
  refine ⟨before.filter p, after.filter p, ?_, ?_, ?_⟩
  · rw [List.filter_append, List.filter_cons_of_pos hp]
  · exact fun x hx => hbefore x (List.mem_of_mem_filter hx)
  · exact fun y hy => hafter y (List.mem_of_mem_filter hy)

theorem isLastMax_of_lastMax [Std.TransCmp cmp] {l : List α} {m : α}
    (h : lastMax cmp l = some m) : IsLastMax cmp l m := by
  induction l using List.reverseRecOn generalizing m with
  | nil => cases h
  | append_singleton l x ih =>
    rw [lastMax_concat] at h
    cases hbest : lastMax cmp l with
    | none =>
      rw [hbest] at h
      obtain rfl := Option.some.inj h
      rw [(lastMax_eq_none_iff cmp l).mp hbest]
      exact ⟨[], [], rfl, by simp, by simp⟩
    | some y =>
      obtain ⟨before, after, rfl, hbefore, hafter⟩ := ih hbest
      rw [hbest, later] at h
      split at h
      · rename_i hgt
        obtain rfl := Option.some.inj h
        refine ⟨before, after ++ [x], by simp, hbefore, fun z hz => ?_⟩
        rcases List.mem_append.mp hz with hz | hz
        · exact hafter z hz
        · rw [List.mem_singleton.mp hz]
          exact hgt
      · rename_i hle
        obtain rfl := Option.some.inj h
        -- what is at most the best so far is at most the new one
        have htrans : ∀ z, cmp z y ≠ .gt → cmp z x ≠ .gt := fun z hz =>
          Ordering.isLE_iff_ne_gt.mp (Std.TransCmp.isLE_trans
            (Ordering.isLE_iff_ne_gt.mpr hz) (Ordering.isLE_iff_ne_gt.mpr hle))
        refine ⟨before ++ y :: after, [], rfl, fun z hz => ?_, by simp⟩
        rcases List.mem_append.mp hz with hz | hz
        · exact htrans z (hbefore z hz)
        · rcases List.mem_cons.mp hz with rfl | hz
          · exact hle
          · have hlt : cmp z y = .lt := Std.OrientedCmp.lt_of_gt (hafter z hz)
            exact htrans z (by rw [hlt]; decide)

/-- What is the greatest stays so when others leave. -/
theorem lastMax_filter [Std.TransCmp cmp] {l : List α} {m : α} (h : lastMax cmp l = some m)
    {p : α → Bool} (hp : p m = true) : lastMax cmp (l.filter p) = some m :=
  ((isLastMax_of_lastMax cmp h).filter cmp hp).lastMax_eq cmp

end BatleHub.Lib.LastMax
