import Mathlib.Data.List.Sort

/-!
A stable sort and the lists taken out of it: sorting what is left of a list leaves the same
order as taking it out of the sorted list.
-/
namespace BatleHub.Lib.StableSort

variable {α : Type*} {r : α → α → Prop} [DecidableRel r] [IsTrans α r]

theorem filter_orderedInsert (p : α → Bool) (a : α) (l : List α) (hl : l.Pairwise r) :
    (l.orderedInsert r a).filter p =
      if p a then (l.filter p).orderedInsert r a else l.filter p := by
  induction l with
  | nil => cases hp : p a <;> simp [hp]
  | cons b l ih =>
    obtain ⟨hb, hrest⟩ := List.pairwise_cons.mp hl
    by_cases hab : r a b
    · rw [List.orderedInsert_cons, if_pos hab, List.filter_cons]
      split
      · -- everything behind `b` comes after `a` as well
        have hall : ∀ c ∈ (b :: l).filter p, r a c := by
          intro c hc
          rcases List.mem_cons.mp (List.mem_of_mem_filter hc) with rfl | hmem
          · exact hab
          · exact trans_of r hab (hb c hmem)
        cases hfilter : (b :: l).filter p with
        | nil => rfl
        | cons c cs =>
          rw [hfilter] at hall
          rw [List.orderedInsert_cons, if_pos (hall c List.mem_cons_self)]
      · rfl
    · rw [List.orderedInsert_cons, if_neg hab, List.filter_cons, List.filter_cons, ih hrest]
      by_cases hpb : p b = true
      · rw [if_pos hpb, if_pos hpb]
        split
        · rw [List.orderedInsert_cons, if_neg hab]
        · rfl
      · rw [if_neg hpb, if_neg hpb]

theorem filter_insertionSort [Std.Total r] (p : α → Bool) (l : List α) :
    (l.filter p).insertionSort r = (l.insertionSort r).filter p := by
  induction l with
  | nil => rfl
  | cons a l ih =>
    rw [List.insertionSort_cons, filter_orderedInsert p a _ (List.pairwise_insertionSort r l),
      ← ih, List.filter_cons]
    split
    · rw [List.insertionSort_cons]
    · rfl

end BatleHub.Lib.StableSort
