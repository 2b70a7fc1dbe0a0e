import Mathlib.Data.List.Basic

/-!
A text cut into its lines, each with its terminator, which only the last one may lack. Lines
that are taken out or changed one by one leave a text that is cut into what is left.
-/
namespace BatleHub.Lib.Lines

variable {α : Type*} [DecidableEq α] {c : α}

/-- `str::split_inclusive`. -/
def splitInclusive (c : α) : List α → List (List α)
  | [] => []
  | a :: text =>
    if a = c then [a] :: splitInclusive c text
    else
      match splitInclusive c text with
      | [] => [[a]]
      | line :: lines => (a :: line) :: lines

def Ended (c : α) (line : List α) : Prop := ∃ body, line = body ++ [c] ∧ c ∉ body

def Unended (c : α) (line : List α) : Prop := line ≠ [] ∧ c ∉ line

/-- Lines as a text is cut into them. -/
structure Cut (c : α) (lines : List (List α)) : Prop where
  exists_last : ∃ ended last, lines = ended ++ last ∧ (∀ line ∈ ended, Ended c line) ∧
    (last = [] ∨ ∃ line, last = [line] ∧ Unended c line)

theorem flatten_splitInclusive (text : List α) : (splitInclusive c text).flatten = text := by
  induction text with
  | nil => rfl
  | cons a text ih =>
    unfold splitInclusive
    split
    · rw [List.flatten_cons, ih, List.singleton_append]
    · split
      · rename_i hnil
        rw [hnil] at ih
        rw [← ih]
        rfl
      · rename_i line lines hlines
        rw [hlines, List.flatten_cons] at ih
        rw [List.flatten_cons, List.cons_append, ih]

theorem cut_splitInclusive (text : List α) : Cut c (splitInclusive c text) := by
  induction text with
  | nil => exact ⟨[], [], rfl, fun _ h => absurd h List.not_mem_nil, .inl rfl⟩
  | cons a text ih =>
    obtain ⟨ended, last, hlines, hended, hlast⟩ := ih
    unfold splitInclusive
    split
    · rename_i hend
      refine ⟨[a] :: ended, last, by rw [hlines]; rfl, ?_, hlast⟩
      intro line hline
      rcases List.mem_cons.mp hline with rfl | hrest
      · exact ⟨[], by rw [hend, List.nil_append], List.not_mem_nil⟩
      · exact hended line hrest
    · rename_i hne
      have hac : c ≠ a := fun heq => hne heq.symm
      split
      · refine ⟨[], [[a]], rfl, fun _ h => absurd h List.not_mem_nil, .inr ⟨[a], rfl, ?_⟩⟩
        exact ⟨List.cons_ne_nil a [], fun hmem => hac (List.mem_singleton.mp hmem)⟩
      · rename_i line lines heq
        rw [heq] at hlines
        cases ended with
        | nil =>
          rcases hlast with rfl | ⟨line', rfl, hunended⟩
          · cases hlines
          · cases hlines
            refine ⟨[], [a :: line], rfl, fun _ h => absurd h List.not_mem_nil,
              .inr ⟨a :: line, rfl, List.cons_ne_nil a line, ?_⟩⟩
            exact fun hmem => (List.mem_cons.mp hmem).elim hac hunended.2
        | cons first ended =>
          cases hlines
          refine ⟨(a :: line) :: ended, last, rfl, ?_, hlast⟩
          intro line' hline'
          rcases List.mem_cons.mp hline' with rfl | hrest
          · obtain ⟨body, hbody, hnot⟩ := hended line List.mem_cons_self
            refine ⟨a :: body, by rw [hbody]; rfl, ?_⟩
            exact fun hmem => (List.mem_cons.mp hmem).elim hac hnot
          · exact hended line' (List.mem_cons_of_mem line hrest)

theorem splitInclusive_ended {body : List α} (hbody : c ∉ body) (text : List α) :
    splitInclusive c (body ++ c :: text) = (body ++ [c]) :: splitInclusive c text := by
  induction body with
  | nil => exact if_pos rfl
  | cons a body ih =>
    rw [List.mem_cons, not_or] at hbody
    rw [List.cons_append, splitInclusive, if_neg (fun heq => hbody.1 heq.symm), ih hbody.2]
    rfl

theorem splitInclusive_unended {line : List α} (h : Unended c line) :
    splitInclusive c line = [line] := by
  obtain ⟨hne, hnot⟩ := h
  induction line with
  | nil => exact absurd rfl hne
  | cons a line ih =>
    rw [List.mem_cons, not_or] at hnot
    rw [splitInclusive, if_neg (fun heq => hnot.1 heq.symm)]
    cases line with
    | nil => rfl
    | cons b line => rw [ih (List.cons_ne_nil b line) hnot.2]

/-- A text of lines is cut into these lines. -/
theorem splitInclusive_flatten {lines : List (List α)} (h : Cut c lines) :
    splitInclusive c lines.flatten = lines := by
  obtain ⟨ended, last, rfl, hended, hlast⟩ := h
  induction ended with
  | nil =>
    rcases hlast with rfl | ⟨line, rfl, hunended⟩
    · rfl
    · rw [List.nil_append, List.flatten_singleton, splitInclusive_unended hunended]
  | cons line ended ih =>
    obtain ⟨body, rfl, hbody⟩ := hended line List.mem_cons_self
    rw [List.cons_append, List.flatten_cons, List.append_assoc, List.singleton_append,
      splitInclusive_ended hbody, ih fun line hline => hended line (List.mem_cons_of_mem _ hline)]

omit [DecidableEq α] in
/-- Lines that are dropped or replaced by lines with the same end are still cut. -/
theorem Cut.filterMap {lines : List (List α)} (h : Cut c lines) {f : List α → Option (List α)}
    (hf : ∀ line line', f line = some line' →
      (Ended c line → Ended c line') ∧ (Unended c line → Unended c line')) :
    Cut c (lines.filterMap f) := by
  obtain ⟨ended, last, rfl, hended, hlast⟩ := h
  refine ⟨ended.filterMap f, last.filterMap f, List.filterMap_append, ?_, ?_⟩
  · intro line' hline'
    obtain ⟨line, hline, heq⟩ := List.mem_filterMap.mp hline'
    exact (hf line line' heq).1 (hended line hline)
  · rcases hlast with rfl | ⟨line, rfl, hunended⟩
    · exact .inl rfl
    · cases heq : f line with
      | none => exact .inl (List.filterMap_cons_none heq)
      | some line' =>
        exact .inr ⟨line', List.filterMap_cons_some heq, (hf line line' heq).2 hunended⟩

end BatleHub.Lib.Lines
