import Mathlib.Data.List.Sort
import Mathlib.Data.List.Destutter
import Mathlib.Order.Defs.LinearOrder

/-!
Membership by binary search. The loop keeps a nonempty window of the list and
halves it until one entry is left; that entry is compared once. On a sorted
list the window never loses the value looked for, so the answer is membership.
Sorting and then removing adjacent repetitions changes no membership.
-/
namespace BatleHub.Lib.SortedSearch

section Search
variable {α : Type*}

/-- The halving loop. `fuel` bounds the iterations; the window's own length
is always enough. -/
def searchBase (cmp : α → Ordering) (l : List α) : ℕ → ℕ → ℕ → ℕ
  | 0, base, _ => base
  | fuel + 1, base, size =>
    if size ≤ 1 then base
    else
      match l[base + size / 2]? with
      | none => base
      | some x =>
        searchBase cmp l fuel
          (if cmp x = .gt then base else base + size / 2) (size - size / 2)

def binarySearchBy (cmp : α → Ordering) (l : List α) : Option ℕ :=
  if l = [] then none
  else
    let base := searchBase cmp l l.length 0 l.length
    match l[base]? with
    | none => none
    | some x => if cmp x = .eq then some base else none

end Search

section Sorted
variable {α : Type*} [LinearOrder α]

/-- The window `[base, base + size)` of `l` holds `a`. -/
def Within (l : List α) (a : α) (base size : ℕ) : Prop :=
  ∃ i, base ≤ i ∧ i < base + size ∧ l[i]? = some a

/-- One halving keeps the value in the window. -/
theorem within_half (l : List α) (hl : l.Pairwise (· ≤ ·)) (a x : α) (base size : ℕ)
    (hsize : 1 < size) (hx : l[base + size / 2]? = some x) (h : Within l a base size) :
    Within l a (if compare x a = .gt then base else base + size / 2) (size - size / 2) := by
  obtain ⟨i, hlow, hhigh, hi⟩ := h
  obtain ⟨hilt, hia⟩ := List.getElem?_eq_some_iff.mp hi
  obtain ⟨hmlt, hmx⟩ := List.getElem?_eq_some_iff.mp hx
  have horder := List.pairwise_iff_getElem.mp hl
  by_cases hcmp : compare x a = .gt
  · rw [if_pos hcmp]
    have hax : a < x := compare_gt_iff_gt.mp hcmp
    have hbefore : i < base + size / 2 := by
      by_contra hge
      rcases Nat.lt_or_eq_of_le (Nat.le_of_not_lt hge) with hlt | heq
      · have := horder (base + size / 2) i hmlt hilt hlt
        rw [hmx, hia] at this
        exact absurd hax (not_lt.mpr this)
      · subst heq
        rw [hmx] at hia
        exact absurd hax (hia ▸ lt_irrefl a)
    exact ⟨i, hlow, by omega, hi⟩
  · rw [if_neg hcmp]
    have hxa : x ≤ a := by
      rw [compare_gt_iff_gt] at hcmp
      exact not_lt.mp hcmp
    by_cases hge : base + size / 2 ≤ i
    · exact ⟨i, hge, by omega, hi⟩
    · have hax : a ≤ x := by
        have := horder i (base + size / 2) hilt hmlt (by omega)
        rwa [hmx, hia] at this
      have heq : x = a := le_antisymm hxa hax
      exact ⟨base + size / 2, le_refl _, by omega, heq ▸ hx⟩

/-- With enough fuel the loop ends on the value whenever the window holds it. -/
theorem searchBase_finds (l : List α) (hl : l.Pairwise (· ≤ ·)) (a : α) :
    ∀ fuel base size, size ≤ fuel → base + size ≤ l.length → Within l a base size →
      l[searchBase (compare · a) l fuel base size]? = some a := by
  intro fuel
  induction fuel with
  | zero =>
    intro base size hfuel hbound hex
    obtain ⟨i, hlow, hhigh, -⟩ := hex
    omega
  | succ fuel ih =>
    intro base size hfuel hbound h
    by_cases hone : size ≤ 1
    · obtain ⟨i, hlow, hhigh, hi⟩ := h
      have heq : i = base := by omega
      simpa only [searchBase, if_pos hone, heq] using hi
    · have hmid : base + size / 2 < l.length := by omega
      have hx := List.getElem?_eq_getElem hmid
      simp only [searchBase, if_neg hone, hx]
      exact ih _ _ (by omega) (by split <;> omega)
        (within_half l hl a _ base size (by omega) hx h)

theorem binarySearchBy_isSome_iff (l : List α) (hl : l.Pairwise (· ≤ ·)) (a : α) :
    (binarySearchBy (compare · a) l).isSome ↔ a ∈ l := by
  constructor
  · intro h
    unfold binarySearchBy at h
    split at h
    · simp at h
    · cases hx : l[searchBase (compare · a) l l.length 0 l.length]? with
      | none => simp [hx] at h
      | some x =>
        have heq : x = a := by
          by_contra hne
          simp [hx, hne] at h
        exact List.mem_of_getElem? (heq ▸ hx)
  · intro ha
    have hne : l ≠ [] := List.ne_nil_of_mem ha
    obtain ⟨i, hi⟩ := List.mem_iff_getElem?.mp ha
    have hwin : Within l a 0 l.length := by
      obtain ⟨hlt, -⟩ := List.getElem?_eq_some_iff.mp hi
      exact ⟨i, by omega, by omega, hi⟩
    have hfound := searchBase_finds l hl a l.length 0 l.length (le_refl _) (by omega) hwin
    simp [binarySearchBy, hne, hfound]

/-- Sort, then drop adjacent repetitions. -/
def sortDedup (l : List α) : List α :=
  (l.insertionSort (· ≤ ·)).destutter (· ≠ ·)

theorem mem_destutter_ne {β : Type*} [DecidableEq β] (l : List β) (b : β) :
    b ∈ l.destutter (· ≠ ·) ↔ b ∈ l := by
  have aux : ∀ (l : List β) (a b : β), b ∈ l.destutter' (· ≠ ·) a ↔ b = a ∨ b ∈ l := by
    intro l
    induction l with
    | nil => simp
    | cons c rest ih =>
      intro a b
      by_cases hac : a = c
      · subst hac
        rw [List.destutter'_cons_neg _ (by simp), ih]
        simp
      · rw [List.destutter'_cons_pos _ (by simpa using hac), List.mem_cons, ih]
        simp
  cases l with
  | nil => simp
  | cons a rest => rw [List.destutter_cons', aux, List.mem_cons]

theorem mem_sortDedup (l : List α) (a : α) : a ∈ sortDedup l ↔ a ∈ l := by
  rw [sortDedup, mem_destutter_ne, List.mem_insertionSort]

theorem sortDedup_pairwise (l : List α) : (sortDedup l).Pairwise (· ≤ ·) :=
  List.Pairwise.sublist (List.destutter_sublist _ _) (List.pairwise_insertionSort _ l)

end Sorted
end BatleHub.Lib.SortedSearch
