import Mathlib.Data.List.Basic
import Mathlib.Data.List.Chain

/-!
One symbol written as another one twice, and the reading that takes the pairs from the
left. The reading gives a text back when no mark in it stands before a mark or before
the written symbol; it never looks across a symbol that is no mark.
-/
namespace BatleHub.Lib.Doubling

variable {α : Type*} [DecidableEq α]

/-- Write `c` as `u u`. -/
def double (c u : α) (l : List α) : List α := l.flatMap fun a => if a = c then [u, u] else [a]

/-- Read `u u` as `c`, from the left. -/
def undouble (c u : α) : List α → List α
  | [] => []
  | [a] => [a]
  | a :: b :: rest =>
    if a = u ∧ b = u then c :: undouble c u rest else a :: undouble c u (b :: rest)

/-- No `u` stands directly before `u` or `c`. -/
def NoMark (c u : α) (l : List α) : Prop := l.IsChain fun a b => ¬ (a = u ∧ (b = u ∨ b = c))

instance (c u : α) (l : List α) : Decidable (NoMark c u l) :=
  inferInstanceAs (Decidable (l.IsChain _))

variable {c u : α}

@[simp]
theorem double_nil : double c u [] = [] := rfl

theorem double_cons (a : α) (l : List α) :
    double c u (a :: l) = (if a = c then [u, u] else [a]) ++ double c u l := rfl

@[simp]
theorem double_append (x y : List α) : double c u (x ++ y) = double c u x ++ double c u y :=
  List.flatMap_append

theorem double_eq_self {l : List α} (h : c ∉ l) : double c u l = l := by
  induction l with
  | nil => rfl
  | cons a l ih =>
    rw [List.mem_cons, not_or] at h
    rw [double_cons, if_neg (Ne.symm h.1), ih h.2, List.singleton_append]

/-- The written symbol is gone. -/
theorem notMem_double (hcu : c ≠ u) (l : List α) : c ∉ double c u l := by
  intro h
  obtain ⟨a, -, ha⟩ := List.mem_flatMap.mp h
  split at ha
  · simp [hcu] at ha
  · rename_i hac
    exact hac (List.mem_singleton.mp ha).symm

theorem mem_double_iff {s : α} (hsc : s ≠ c) (hsu : s ≠ u) (l : List α) :
    s ∈ double c u l ↔ s ∈ l := by
  unfold double
  rw [List.mem_flatMap]
  constructor
  · rintro ⟨a, ha, hs⟩
    split at hs
    · simp [hsu] at hs
    · rw [List.mem_singleton.mp hs]
      exact ha
  · intro hs
    exact ⟨s, hs, by rw [if_neg hsc]; exact List.mem_singleton_self s⟩

theorem undouble_cons_of_ne {a : α} (ha : a ≠ u) (l : List α) :
    undouble c u (a :: l) = a :: undouble c u l := by
  cases l with
  | nil => rfl
  | cons b rest => rw [undouble, if_neg (fun h => ha h.1)]

/-- A symbol that is no mark cuts the text in two that are read apart. -/
theorem undouble_append_cons {s : α} (hs : s ≠ u) (x y : List α) :
    undouble c u (x ++ s :: y) = undouble c u x ++ s :: undouble c u y := by
  induction x using undouble.induct u with
  | case1 => exact undouble_cons_of_ne hs y
  | case2 a =>
    have hpair : ¬ (a = u ∧ s = u) := fun h => hs h.2
    have hcut : undouble c u (a :: s :: y) = a :: undouble c u (s :: y) := by
      rw [undouble, if_neg hpair]
    rw [List.singleton_append, hcut, undouble_cons_of_ne hs]
    rfl
  | case3 a b rest hab ih =>
    rw [List.cons_append, List.cons_append, undouble, if_pos hab, ih, undouble, if_pos hab,
      List.cons_append]
  | case4 a b rest hab ih =>
    rw [List.cons_append, List.cons_append, undouble, if_neg hab, ← List.cons_append, ih,
      undouble, if_neg hab, List.cons_append]

omit [DecidableEq α] in
theorem NoMark.tail {a : α} {l : List α} (h : NoMark c u (a :: l)) : NoMark c u l :=
  List.IsChain.tail h

omit [DecidableEq α] in
theorem NoMark.left {x y : List α} (h : NoMark c u (x ++ y)) : NoMark c u x :=
  List.IsChain.left_of_append h

theorem undouble_double {l : List α} (h : NoMark c u l) : undouble c u (double c u l) = l := by
  induction l with
  | nil => rfl
  | cons a l ih =>
    have hl := ih h.tail
    rw [double_cons]
    by_cases hac : a = c
    · rw [if_pos hac, List.cons_append, List.singleton_append, undouble, if_pos ⟨rfl, rfl⟩, hl, hac]
    · rw [if_neg hac, List.singleton_append]
      by_cases hau : a = u
      · -- The mark is kept, because what follows it is neither written as a mark nor one.
        subst hau
        cases l with
        | nil => rfl
        | cons b l =>
          have hb : ¬ (b = a ∨ b = c) := fun hb => (List.isChain_cons_cons.mp h).1 ⟨rfl, hb⟩
          rw [not_or] at hb
          rw [double_cons, if_neg hb.2, List.singleton_append] at hl ⊢
          rw [undouble, if_neg (fun hp => hb.1 hp.2), hl]
      · rw [undouble_cons_of_ne hau, hl]

theorem double_injective {x y : List α} (hx : NoMark c u x) (hy : NoMark c u y)
    (h : double c u x = double c u y) : x = y := by
  rw [← undouble_double hx, h, undouble_double hy]

/-- A doubled text that goes on with a separator was one before. -/
theorem double_eq_append_cons {s : α} (hs : s ≠ u) {x d rest : List α} (hx : NoMark c u x)
    (hd : NoMark c u d) (h : double c u x = double c u d ++ s :: rest) :
    x = d ++ s :: undouble c u rest := by
  rw [← undouble_double hx, h, undouble_append_cons hs, undouble_double hd]

end BatleHub.Lib.Doubling
