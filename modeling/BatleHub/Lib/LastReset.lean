import Mathlib.Data.List.DropRight

/-!
Lists in which some entries cancel everything before them. The position of the
last cancelling entry, the segment after it, and a left fold that starts again
at each one are three presentations of the same cut; the lemmas here turn each
into the terminal segment `rtakeWhile` that Mathlib already knows.
-/
namespace BatleHub.Lib.LastReset

variable {α β : Type*}

/-- The index of the last entry satisfying `p`. -/
def rposition (p : α → Bool) : List α → Option ℕ
  | [] => none
  | a :: rest =>
    match rposition p rest with
    | some i => some (i + 1)
    | none => if p a then some 0 else none

theorem rposition_eq_none_iff (p : α → Bool) (l : List α) :
    rposition p l = none ↔ ∀ a ∈ l, p a = false := by
  induction l with
  | nil => simp [rposition]
  | cons a rest ih =>
    cases h : rposition p rest with
    | none =>
      have hrest := ih.mp h
      simp only [rposition, h, List.mem_cons, forall_eq_or_imp]
      constructor
      · intro ha
        refine ⟨?_, hrest⟩
        by_contra hp
        simp [hp] at ha
      · intro hex
        obtain ⟨ha, -⟩ := hex
        simp [ha]
    | some i =>
      have hrest : ¬ ∀ b ∈ rest, p b = false := by
        rw [← ih, h]
        simp
      simp only [rposition, h, reduceCtorEq, false_iff]
      exact fun hall => hrest fun b hb => hall b (List.mem_cons_of_mem a hb)

theorem rposition_isSome_iff (p : α → Bool) (l : List α) :
    (rposition p l).isSome ↔ ∃ a ∈ l, p a = true := by
  rw [← not_iff_not, Bool.not_eq_true, Option.isSome_eq_false_iff,
    Option.isNone_iff_eq_none, rposition_eq_none_iff]
  simp

theorem rtakeWhile_cons (p : α → Bool) (a : α) (l : List α) :
    (a :: l).rtakeWhile p =
      if ∀ b ∈ l, p b then (if p a then a :: l else l) else l.rtakeWhile p := by
  induction l using List.reverseRecOn with
  | nil => by_cases ha : p a <;> simp [List.rtakeWhile, ha]
  | append_singleton l x ih =>
    rw [← List.cons_append, List.rtakeWhile_concat, List.rtakeWhile_concat, ih]
    by_cases hx : p x
    · by_cases hl : ∀ b ∈ l, p b
      · have hall : ∀ b ∈ l ++ [x], p b := by
          intro b hb
          rcases List.mem_append.mp hb with hb | hb
          · exact hl b hb
          · rw [List.mem_singleton.mp hb]
            exact hx
        rw [if_pos hx, if_pos hl, if_pos hall]
        split <;> simp
      · have hnot : ¬ ∀ b ∈ l ++ [x], p b := by
          intro hall
          exact hl fun b hb => hall b (List.mem_append_left _ hb)
        rw [if_pos hx, if_neg hl, if_neg hnot, if_pos hx]
    · have hnot : ¬ ∀ b ∈ l ++ [x], p b := by
        intro hall
        exact hx (hall x (by simp))
      rw [if_neg hx, if_neg hnot, if_neg hx]

/-- Dropping everything up to the last `p` leaves the longest tail free of it. -/
theorem drop_after_rposition (p : α → Bool) (l : List α) :
    l.drop ((rposition p l).elim 0 (· + 1)) = l.rtakeWhile (fun a => !p a) := by
  induction l with
  | nil => simp [rposition]
  | cons a rest ih =>
    rw [rtakeWhile_cons]
    cases h : rposition p rest with
    | none =>
      have hrest := (rposition_eq_none_iff p rest).mp h
      rw [if_pos (by simpa using hrest)]
      by_cases ha : p a
      · simp [rposition, h, ha]
      · simp [rposition, h, ha]
    | some i =>
      have hsome : ¬ ∀ b ∈ rest, (!p b) = true := by
        intro hall
        have := (rposition_eq_none_iff p rest).mpr (by simpa using hall)
        rw [h] at this
        exact Option.some_ne_none i this
      rw [if_neg hsome, ← ih]
      simp [rposition, h]

theorem rtakeWhile_append_of_forall (p : α → Bool) (l r : List α) (hr : ∀ a ∈ r, p a) :
    (l ++ r).rtakeWhile p = l.rtakeWhile p ++ r := by
  induction r using List.reverseRecOn with
  | nil => simp
  | append_singleton r x ih =>
    rw [← List.append_assoc, List.rtakeWhile_concat_pos _ _ _ (hr x (by simp)),
      ih fun a ha => hr a (by simp [ha]), List.append_assoc]

theorem rtakeWhile_append_of_exists (p : α → Bool) (l r : List α) (hr : ∃ a ∈ r, p a = false) :
    (l ++ r).rtakeWhile p = r.rtakeWhile p := by
  induction l with
  | nil => rfl
  | cons b l ih =>
    have hnot : ¬ ∀ a ∈ l ++ r, p a = true := by
      obtain ⟨a, ha, hpa⟩ := hr
      intro hall
      rw [hall a (List.mem_append_right l ha)] at hpa
      exact Bool.noConfusion hpa
    rw [List.cons_append, rtakeWhile_cons, if_neg hnot, ih]

theorem mem_rtakeWhile_iff (p : α → Bool) (l : List α) (a : α) :
    a ∈ l.rtakeWhile p ↔
      ∃ before after, l = before ++ a :: after ∧ p a ∧ ∀ b ∈ after, p b := by
  induction l using List.reverseRecOn with
  | nil => simp
  | append_singleton l x ih =>
    rw [List.rtakeWhile_concat]
    constructor
    · intro ha
      split at ha
      · rename_i hx
        rcases List.mem_append.mp ha with hold | hnew
        · obtain ⟨before, after, rfl, hpa, hafter⟩ := ih.mp hold
          refine ⟨before, after ++ [x], by simp, hpa, ?_⟩
          intro b hb
          rcases List.mem_append.mp hb with hb | hb
          · exact hafter b hb
          · rw [List.mem_singleton.mp hb]
            exact hx
        · rw [List.mem_singleton.mp hnew]
          exact ⟨l, [], rfl, hx, by simp⟩
      · simp at ha
    · intro hex
      obtain ⟨before, after, heq, hpa, hafter⟩ := hex
      -- the last entry of the list is the last of `after`, or `a` itself
      cases after using List.reverseRecOn with
      | nil =>
        obtain ⟨rfl, hxa⟩ := List.append_inj' heq rfl
        obtain rfl : x = a := by simpa using hxa
        simp [hpa]
      | append_singleton after y _ =>
        have hsplit : l ++ [x] = (before ++ a :: after) ++ [y] := by simpa using heq
        obtain ⟨hl, hxy⟩ := List.append_inj' hsplit rfl
        obtain rfl : x = y := by simpa using hxy
        have hx : p x := hafter x (by simp)
        rw [if_pos hx]
        exact List.mem_append_left _
          (ih.mpr ⟨before, after, hl, hpa, fun b hb => hafter b (by simp [hb])⟩)

/-- A left fold that returns to `start` at every `p` has forgotten everything
up to the last one. -/
theorem foldl_reset (p : α → Bool) (f : β → α → β) (init start : β) (l : List α) :
    l.foldl (fun acc a => if p a then start else f acc a) init =
      (l.rtakeWhile (fun a => !p a)).foldl f (if ∃ a ∈ l, p a then start else init) := by
  induction l using List.reverseRecOn with
  | nil => simp
  | append_singleton l x ih =>
    rw [List.foldl_append, List.foldl_cons, List.foldl_nil, List.rtakeWhile_concat]
    by_cases hx : p x
    · simp [hx]
    · have hiff : (∃ a ∈ l ++ [x], p a) ↔ ∃ a ∈ l, p a := by simp [hx]
      simp only [hx, Bool.false_eq_true, ↓reduceIte, Bool.not_false, List.foldl_append,
        List.foldl_cons, List.foldl_nil, ih, hiff]

end BatleHub.Lib.LastReset
