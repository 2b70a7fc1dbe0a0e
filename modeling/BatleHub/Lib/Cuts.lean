import BatleHub.Lib.Segments
import BatleHub.Lib.Texts
import Mathlib.Data.Nat.Notation

/-!
Texts cut at their end or at the first occurrence of a pattern. A pattern that does not
overlap itself is found where it was written, unless the text before it has it as well.
-/
namespace BatleHub.Lib.Cuts

section Lists
variable {α : Type*} [DecidableEq α] {c : α} {pat l : List α}

/-- `str::rsplitn`, the last piece first. -/
def rsplitN (c : α) : ℕ → List α → List (List α)
  | 0, _ => []
  | 1, l => [l]
  | n + 2, l =>
    match Texts.splitAtFirst c l.reverse with
    | none => [l]
    | some (last, front) => last.reverse :: rsplitN c (n + 1) front.reverse

theorem rsplitN_append_cons (n : ℕ) (front : List α) {last : List α} (h : c ∉ last) :
    rsplitN c (n + 2) (front ++ c :: last) = last :: rsplitN c (n + 1) front := by
  have hsplit : Texts.splitAtFirst c (front ++ c :: last).reverse =
      some (last.reverse, front.reverse) :=
    (Texts.splitAtFirst_eq_some_iff c _ _ _).mpr ⟨by simp, by simpa using h⟩
  rw [rsplitN, hsplit]
  simp only [List.reverse_reverse]

/-- The pieces joined again. -/
theorem intercalate_reverse_rsplitN (n : ℕ) (l : List α) :
    [c].intercalate (rsplitN c (n + 1) l).reverse = l := by
  induction n generalizing l with
  | zero => simp [rsplitN]
  | succ n ih =>
    rw [rsplitN]
    split
    · simp
    · rename_i last front hsplit
      obtain ⟨hl, -⟩ := (Texts.splitAtFirst_eq_some_iff c _ _ _).mp hsplit
      have hne : (rsplitN c (n + 1) front.reverse).reverse ≠ [] := by
        cases n with
        | zero => simp [rsplitN]
        | succ n =>
          rw [rsplitN]
          split <;> simp
      rw [List.reverse_cons, Segments.intercalate_append c hne (List.cons_ne_nil _ _), ih,
        ← List.reverse_inj, hl]
      simp

/-- The text before the first occurrence of a pattern, by `str::find`. -/
def beforeFirst (pat : List α) : List α → Option (List α)
  | [] => if pat = [] then some [] else none
  | a :: l =>
    if pat.isPrefixOf (a :: l) then some [] else (beforeFirst pat l).map fun before => a :: before

omit [DecidableEq α] in
/-- `before` ends where the pattern first occurs. -/
structure FirstAt (pat l before : List α) : Prop where
  occurs : before ++ pat <+: l
  first : ∀ b, b ++ pat <+: l → before.length ≤ b.length

theorem firstAt_of_beforeFirst {before : List α} (h : beforeFirst pat l = some before) :
    FirstAt pat l before := by
  induction l generalizing before with
  | nil =>
    rw [beforeFirst] at h
    split_ifs at h with hpat
    obtain rfl := Option.some.inj h
    exact ⟨by simp [hpat], fun b _ => Nat.zero_le b.length⟩
  | cons a l ih =>
    rw [beforeFirst] at h
    split_ifs at h with hhere
    · obtain rfl := Option.some.inj h
      exact ⟨List.isPrefixOf_iff_prefix.mp hhere, fun b _ => Nat.zero_le b.length⟩
    · obtain ⟨before, hbefore, rfl⟩ := Option.map_eq_some_iff.mp h
      obtain ⟨hoccurs, hfirst⟩ := ih hbefore
      refine ⟨by simpa using hoccurs, ?_⟩
      intro b hb
      cases b with
      | nil => exact absurd (List.isPrefixOf_iff_prefix.mpr hb) hhere
      | cons x b =>
        have htail : b ++ pat <+: l := (List.cons_prefix_cons.mp hb).2
        exact Nat.succ_le_succ (hfirst b htail)

theorem exists_beforeFirst {b : List α} (h : b ++ pat <+: l) :
    ∃ before, beforeFirst pat l = some before := by
  induction l generalizing b with
  | nil =>
    have hnil := List.append_eq_nil_iff.mp (List.prefix_nil.mp h)
    exact ⟨[], by rw [beforeFirst, if_pos hnil.2]⟩
  | cons a l ih =>
    rw [beforeFirst]
    split_ifs with hhere
    · exact ⟨[], rfl⟩
    · cases b with
      | nil => exact absurd (List.isPrefixOf_iff_prefix.mpr h) hhere
      | cons x b =>
        obtain ⟨before, hbefore⟩ := ih (List.cons_prefix_cons.mp h).2
        exact ⟨a :: before, by rw [hbefore, Option.map_some]⟩

/-- A pattern that does not begin again inside itself. -/
def Unbordered (pat : List α) : Prop := ∀ i < pat.length, 0 < i → ¬ pat.drop i <+: pat

instance (pat : List α) : Decidable (Unbordered pat) :=
  inferInstanceAs (Decidable (∀ i < pat.length, 0 < i → ¬ pat.drop i <+: pat))

omit [DecidableEq α] in
/-- An occurrence that begins before a written pattern ends before it too. -/
theorem Unbordered.prefix_of_lt (hpat : Unbordered pat) {stem rest b : List α}
    (h : b ++ pat <+: stem ++ pat ++ rest) (hlt : b.length < stem.length) : b ++ pat <+: stem := by
  have hstem : stem <+: stem ++ pat ++ rest := by
    rw [List.append_assoc]
    exact List.prefix_append stem _
  by_cases hends : (b ++ pat).length ≤ stem.length
  · exact List.prefix_of_prefix_length_le h hstem hends
  · exfalso
    have hb : b <+: stem := List.prefix_of_prefix_length_le
      ((List.prefix_append b pat).trans h) hstem (Nat.le_of_lt hlt)
    obtain ⟨mid, rfl⟩ := hb
    rw [List.length_append] at hlt hends
    rw [List.append_assoc, List.append_assoc, List.prefix_append_right_inj] at h
    have hmid : mid <+: pat := List.prefix_of_prefix_length_le (List.prefix_append mid _) h
      (by rw [List.length_append] at hends; omega)
    obtain ⟨tail, rfl⟩ := hmid
    rw [List.length_append, List.length_append] at hends
    apply hpat mid.length (by rw [List.length_append]; omega) (by omega)
    rw [List.drop_left]
    rw [List.prefix_append_right_inj] at h
    exact List.prefix_of_prefix_length_le h (List.prefix_append _ _) (by simp)

end Lists

section Pieces
variable {α : Type*} [DecidableEq α] {pat : List α}

/-- `str::split` by a pattern, with the text's length as fuel. -/
def splitFuel (pat : List α) : ℕ → List α → List (List α)
  | 0, l => [l]
  | fuel + 1, l =>
    match beforeFirst pat l with
    | none => [l]
    | some before => before :: splitFuel pat fuel (l.drop (before.length + pat.length))

def splitText (pat l : List α) : List (List α) := splitFuel pat l.length l

theorem splitFuel_eq_cons (fuel : ℕ) {l : List α} (h : l.length ≤ fuel) (hpat : pat ≠ []) :
    splitFuel pat fuel l =
      (beforeFirst pat l).getD l :: (splitFuel pat fuel l).tail := by
  cases fuel with
  | zero =>
    obtain rfl := List.length_eq_zero_iff.mp (Nat.le_zero.mp h)
    simp [splitFuel, beforeFirst, hpat]
  | succ fuel =>
    rw [splitFuel]
    cases beforeFirst pat l <;> rfl

/-- The occurrences of an unbordered pattern: the first one, and those of the rest. -/
theorem forall_occurrences_iff (hpat : Unbordered pat) {l before : List α}
    (h : beforeFirst pat l = some before) (Q : List α → Prop) :
    (∀ a b, l = a ++ pat ++ b → Q b) ↔
      Q (l.drop (before.length + pat.length)) ∧
        ∀ a b, l.drop (before.length + pat.length) = a ++ pat ++ b → Q b := by
  obtain ⟨⟨rest, hrest⟩, hfirst⟩ := firstAt_of_beforeFirst h
  subst hrest
  have hdrop : (before ++ pat ++ rest).drop (before.length + pat.length) = rest := by
    rw [← List.length_append, List.drop_left]
  rw [hdrop]
  constructor
  · intro hall
    refine ⟨hall before rest rfl, ?_⟩
    rintro a b rfl
    exact hall (before ++ pat ++ a) b (by simp)
  · rintro ⟨hhere, hlater⟩ a b hab
    have hle : before.length ≤ a.length := hfirst a ⟨b, hab.symm⟩
    rcases Nat.lt_or_eq_of_le hle with hlt | heq
    · -- the first occurrence ends before this one begins
      obtain ⟨mid, hmid⟩ := hpat.prefix_of_lt ⟨rest, hab⟩ hlt
      have hback : before ++ pat ++ rest = before ++ pat ++ (mid ++ pat ++ b) := by
        rw [hab, ← hmid]
        simp
      exact hlater mid b (List.append_cancel_left hback)
    · rw [List.append_assoc, List.append_assoc] at hab
      obtain ⟨rfl, hback⟩ := List.append_inj hab heq
      obtain rfl := List.append_cancel_left hback
      exact hhere

/-- A property of the pieces behind the first that only their beginnings decide is one of
every place where the pattern occurs. -/
theorem forall_tail_splitFuel_iff (hpat : Unbordered pat) (hne : pat ≠ []) (P : List α → Prop)
    (hP : ∀ l before, beforeFirst pat l = some before → (P before ↔ P l)) (fuel : ℕ)
    (l : List α) (hfuel : l.length ≤ fuel) :
    (∀ piece ∈ (splitFuel pat fuel l).tail, P piece) ↔
      ∀ a b, l = a ++ pat ++ b → P b := by
  have hpos : 0 < pat.length := List.length_pos_iff.mpr hne
  induction fuel generalizing l with
  | zero =>
    obtain rfl := List.length_eq_zero_iff.mp (Nat.le_zero.mp hfuel)
    simp [splitFuel, hne]
  | succ fuel ih =>
    rw [splitFuel]
    cases hbefore : beforeFirst pat l with
    | none =>
      refine iff_of_true (by simp) ?_
      intro a b hab
      obtain ⟨before, hsome⟩ := exists_beforeFirst (show a ++ pat <+: l from ⟨b, hab.symm⟩)
      rw [hbefore] at hsome
      cases hsome
    | some before =>
      rw [forall_occurrences_iff hpat hbefore P]
      have hrest : (l.drop (before.length + pat.length)).length ≤ fuel := by
        rw [List.length_drop]
        omega
      rw [List.tail_cons, splitFuel_eq_cons fuel hrest hne, List.forall_mem_cons]
      refine and_congr ?_ (ih _ hrest)
      cases hnext : beforeFirst pat (l.drop (before.length + pat.length)) with
      | none => rfl
      | some piece => exact hP _ piece hnext

end Pieces

/-- `str::ends_with`. -/
def endsWith (s tail : String) : Bool := tail.toList.isSuffixOf s.toList

/-- `str::strip_suffix`. -/
def stripSuffix (s tail : String) : Option String :=
  if endsWith s tail then
    some (String.ofList (s.toList.take (s.toList.length - tail.toList.length)))
  else none

theorem endsWith_iff (s tail : String) : endsWith s tail = true ↔ ∃ stem, s = stem ++ tail := by
  unfold endsWith
  rw [List.isSuffixOf_iff_suffix]
  constructor
  · rintro ⟨stem, hstem⟩
    refine ⟨String.ofList stem, String.toList_inj.mp ?_⟩
    rw [String.toList_append, String.toList_ofList, hstem]
  · rintro ⟨stem, rfl⟩
    rw [String.toList_append]
    exact List.suffix_append _ _

theorem stripSuffix_append (stem tail : String) : stripSuffix (stem ++ tail) tail = some stem := by
  have hends : endsWith (stem ++ tail) tail = true := (endsWith_iff _ _).mpr ⟨stem, rfl⟩
  unfold stripSuffix
  rw [if_pos hends]
  simp

end BatleHub.Lib.Cuts
