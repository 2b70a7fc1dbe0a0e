import Mathlib.Data.List.Basic
import Mathlib.Logic.Relation

/-!
Texts with escapes of a mark and two digits. An escape is decoded wherever it stands, and
what it decodes to may take part in further escapes. Reading the text from its end and
decoding as soon as an escape is complete gives the one text all orders of decoding lead
to. Symbols that are no part of an escape stay, and the runs of symbols of a class outside
the escapes can be read as one.
-/
namespace BatleHub.Lib.Escapes

section Decoding
variable {α : Type*} [DecidableEq α] (mark : α) (dec : α → α → Option α)

/-- One escape is decoded. -/
def DecodesOne (x y : List α) : Prop :=
  ∃ before high low c after, dec high low = some c ∧
    x = before ++ mark :: high :: low :: after ∧ y = before ++ c :: after

/-- Escapes are decoded, in any order. -/
def Decodes : List α → List α → Prop := Relation.ReflTransGen (DecodesOne mark dec)

/-- Put one symbol before a text; an escape it completes is decoded. -/
def push (a : α) : List α → List α
  | high :: low :: rest =>
    if a = mark then
      match dec high low with
      | some c => push c rest
      | none => a :: high :: low :: rest
    else a :: high :: low :: rest
  | short => a :: short

/-- All escapes decoded, those that decoding makes included. -/
def full (l : List α) : List α := l.foldr (push mark dec) []

variable {mark dec}

@[simp] theorem full_nil : full mark dec [] = [] := rfl

@[simp] theorem full_cons (a : α) (l : List α) :
    full mark dec (a :: l) = push mark dec a (full mark dec l) := rfl

theorem full_append (x y : List α) :
    full mark dec (x ++ y) = x.foldr (push mark dec) (full mark dec y) := List.foldr_append

theorem push_of_ne {a : α} (h : a ≠ mark) (l : List α) : push mark dec a l = a :: l := by
  rcases l with _ | ⟨b, _ | ⟨c, l⟩⟩
  · rfl
  · rfl
  · rw [push, if_neg h]

theorem push_escape {high low c : α} (h : dec high low = some c) (rest : List α) :
    push mark dec mark (high :: low :: rest) = push mark dec c rest := by
  rw [push, if_pos rfl, h]

theorem push_of_none {a high low : α} (h : dec high low = none) (rest : List α) :
    push mark dec a (high :: low :: rest) = a :: high :: low :: rest := by
  rw [push, h]
  split_ifs <;> rfl

theorem push_ne_nil (a : α) (l : List α) : push mark dec a l ≠ [] := by
  match l with
  | [] => exact List.cons_ne_nil _ _
  | [b] => exact List.cons_ne_nil _ _
  | high :: low :: rest =>
    by_cases ha : a = mark
    · rcases hdec : dec high low with _ | c
      · rw [push_of_none hdec]
        exact List.cons_ne_nil _ _
      · rw [ha, push_escape hdec]
        exact push_ne_nil c rest
    · rw [push_of_ne ha]
      exact List.cons_ne_nil _ _
termination_by l.length

/-- Decoding leaves something of every text that is not empty. -/
theorem full_ne_nil {l : List α} (h : l ≠ []) : full mark dec l ≠ [] := by
  obtain ⟨a, l, rfl⟩ := List.exists_cons_of_ne_nil h
  exact push_ne_nil a _

section Digits

-- The mark is no digit.
variable (hdigits : ∀ high low c, dec high low = some c → high ≠ mark ∧ low ≠ mark)
include hdigits

/-- Decoding one escape does not change what all decodings lead to. -/
theorem full_of_decodesOne {x y : List α} (h : DecodesOne mark dec x y) :
    full mark dec x = full mark dec y := by
  obtain ⟨before, high, low, c, after, hdec, rfl, rfl⟩ := h
  obtain ⟨hhigh, hlow⟩ := hdigits high low c hdec
  rw [full_append, full_append]
  congr 1
  rw [full_cons, full_cons, full_cons, full_cons, push_of_ne hlow, push_of_ne hhigh,
    push_escape hdec]

theorem full_of_decodes {x y : List α} (h : Decodes mark dec x y) :
    full mark dec x = full mark dec y := by
  induction h with
  | refl => rfl
  | tail _ hstep ih => exact ih.trans (full_of_decodesOne hdigits hstep)

end Digits

/-- A symbol that is no part of an escape. -/
structure Solid (mark : α) (dec : α → α → Option α) (s : α) : Prop where
  ne_mark : s ≠ mark
  high : ∀ low, dec s low = none
  low : ∀ high, dec high s = none

theorem push_append_solid {s : α} (hs : Solid mark dec s) (a : α) (x y : List α) :
    push mark dec a (x ++ s :: y) = push mark dec a x ++ s :: y := by
  match x with
  | [] =>
    rcases y with _ | ⟨b, y⟩
    · rfl
    · exact push_of_none (hs.high b) y
  | [b] => exact push_of_none (hs.low b) y
  | high :: low :: rest =>
    by_cases ha : a = mark
    · rcases hdec : dec high low with _ | c
      · rw [push_of_none hdec, List.cons_append, List.cons_append, push_of_none hdec]
        rfl
      · rw [ha, push_escape hdec, List.cons_append, List.cons_append, push_escape hdec]
        exact push_append_solid hs c rest y
    · rw [push_of_ne ha, push_of_ne ha]
      rfl
termination_by x.length

/-- Decoding never reaches across a solid symbol. -/
theorem full_append_solid {s : α} (hs : Solid mark dec s) (x y : List α) :
    full mark dec (x ++ s :: y) = full mark dec x ++ s :: full mark dec y := by
  induction x with
  | nil => rw [List.nil_append, full_cons, push_of_ne hs.ne_mark, full_nil, List.nil_append]
  | cons a x ih => rw [List.cons_append, full_cons, ih, push_append_solid hs, full_cons]

end Decoding

section Collapsing
variable {α : Type*} [DecidableEq α] (foreign : α → Bool) (stand : α)

/-- Put one symbol before a text whose foreign runs are one symbol each. -/
def absorb (a : α) (l : List α) : List α :=
  if foreign a then (if l.head? = some stand then l else stand :: l) else a :: l

/-- A text with one stand-in for each run of foreign symbols. -/
def collapse (l : List α) : List α := l.foldr (absorb foreign stand) []

variable {foreign stand}

@[simp] theorem collapse_nil : collapse foreign stand [] = [] := rfl

theorem collapse_cons (a : α) (l : List α) :
    collapse foreign stand (a :: l) = absorb foreign stand a (collapse foreign stand l) := rfl

theorem absorb_of_not {a : α} (h : foreign a = false) (l : List α) :
    absorb foreign stand a l = a :: l := by
  rw [absorb, h, if_neg Bool.false_ne_true]

theorem absorb_congr {a b : α} (ha : foreign a = true) (hb : foreign b = true) (l : List α) :
    absorb foreign stand a l = absorb foreign stand b l := by
  rw [absorb, if_pos ha, absorb, if_pos hb]

theorem head?_absorb {a : α} (ha : foreign a = true) (l : List α) :
    (absorb foreign stand a l).head? = some stand := by
  rw [absorb, if_pos ha]
  by_cases hhead : l.head? = some stand
  · rw [if_pos hhead, hhead]
  · rw [if_neg hhead, List.head?_cons]

theorem absorb_eq_self {a : α} (ha : foreign a = true) {l : List α}
    (h : l.head? = some stand) : absorb foreign stand a l = l := by
  rw [absorb, if_pos ha, if_pos h]

theorem collapse_ne_nil {l : List α} (h : l ≠ []) : collapse foreign stand l ≠ [] := by
  obtain ⟨a, l, rfl⟩ := List.exists_cons_of_ne_nil h
  rw [collapse_cons]
  rcases ha : foreign a with _ | _
  · rw [absorb_of_not ha]
    exact List.cons_ne_nil _ _
  · intro hnil
    have hhead : (absorb foreign stand a (collapse foreign stand l)).head? = some stand :=
      head?_absorb ha _
    rw [hnil] at hhead
    exact absurd hhead (by simp)

variable (hstand : foreign stand = true)
include hstand

theorem collapse_append_of_not {s : α} (hs : foreign s = false) (x y : List α) :
    collapse foreign stand (x ++ s :: y) =
      collapse foreign stand x ++ s :: collapse foreign stand y := by
  induction x with
  | nil => rw [List.nil_append, collapse_cons, absorb_of_not hs, collapse_nil, List.nil_append]
  | cons a x ih =>
    rw [List.cons_append, collapse_cons, ih, collapse_cons]
    rcases ha : foreign a with _ | _
    · rw [absorb_of_not ha, absorb_of_not ha, List.cons_append]
    · have hne : s ≠ stand := by
        rintro rfl
        rw [hstand] at hs
        exact absurd hs (by decide)
      rcases hx : collapse foreign stand x with _ | ⟨b, t⟩
      · simp [absorb, ha, hne]
      · by_cases hb : b = stand
        · simp [absorb, ha, hb]
        · simp [absorb, ha, hb]

theorem collapse_absorb (a : α) (l : List α) :
    collapse foreign stand (absorb foreign stand a l) =
      absorb foreign stand a (collapse foreign stand l) := by
  rcases ha : foreign a with _ | _
  · rw [absorb_of_not ha, collapse_cons]
  · by_cases hhead : l.head? = some stand
    · obtain ⟨rest, rfl⟩ := List.head?_eq_some_iff.mp hhead
      have hcollapse : (collapse foreign stand (stand :: rest)).head? = some stand :=
        head?_absorb hstand _
      rw [absorb_eq_self ha hhead, absorb_eq_self ha hcollapse]
    · rw [absorb, if_pos ha, if_neg hhead, collapse_cons, absorb_congr hstand ha]

theorem collapse_collapse (l : List α) :
    collapse foreign stand (collapse foreign stand l) = collapse foreign stand l := by
  induction l with
  | nil => rfl
  | cons a l ih => rw [collapse_cons, collapse_absorb hstand, ih]

/-- A symbol that is not foreign stands in the text itself. -/
theorem eq_cons_of_collapse_eq {b : α} (hb : foreign b = false) {l rest : List α}
    (h : collapse foreign stand l = b :: rest) :
    ∃ l', l = b :: l' ∧ collapse foreign stand l' = rest := by
  cases l with
  | nil => exact absurd h (by simp)
  | cons a l =>
    rw [collapse_cons] at h
    rcases ha : foreign a with _ | _
    · rw [absorb_of_not ha, List.cons.injEq] at h
      exact ⟨l, by rw [h.1], h.2⟩
    · have hhead : (absorb foreign stand a (collapse foreign stand l)).head? = some stand :=
        head?_absorb ha _
      rw [h, List.head?_cons, Option.some.injEq] at hhead
      rw [hhead, hstand] at hb
      exact absurd hb (by decide)

section Escapes
variable {mark : α} {dec : α → α → Option α}
  (hdigits : ∀ high low c, dec high low = some c → foreign high = false ∧ foreign low = false)
include hdigits

theorem collapse_push (a : α) (l : List α) :
    collapse foreign stand (push mark dec a l) =
      collapse foreign stand (push mark dec a (collapse foreign stand l)) := by
  have hplain : push mark dec a l = a :: l →
      push mark dec a (collapse foreign stand l) = a :: collapse foreign stand l →
      collapse foreign stand (push mark dec a l) =
        collapse foreign stand (push mark dec a (collapse foreign stand l)) := by
    intro hl hc
    rw [hl, hc, collapse_cons, collapse_cons, collapse_collapse hstand]
  by_cases ha : a = mark
  · match l with
    | [] => rfl
    | [b] =>
      refine hplain rfl ?_
      rcases hb : foreign b with _ | _
      · simp only [collapse_cons, collapse_nil, absorb_of_not hb]
        rfl
      · simp only [collapse_cons, collapse_nil, absorb, hb, if_pos]
        rfl
    | high :: low :: rest =>
      rcases hdec : dec high low with _ | c
      · refine hplain (push_of_none hdec rest) ?_
        rcases hc : collapse foreign stand (high :: low :: rest) with _ | ⟨high', _ | ⟨low', t⟩⟩
        · rfl
        · rfl
        · rcases hdec' : dec high' low' with _ | c
          · exact push_of_none hdec' t
          · obtain ⟨hhigh, hlow⟩ := hdigits high' low' c hdec'
            obtain ⟨l', hl', hrest⟩ := eq_cons_of_collapse_eq hstand hhigh hc
            obtain ⟨l'', hl'', -⟩ := eq_cons_of_collapse_eq hstand hlow hrest
            rw [hl'', List.cons.injEq, List.cons.injEq] at hl'
            rw [hl'.1, hl'.2.1, hdec'] at hdec
            exact absurd hdec (by simp)
      · obtain ⟨hhigh, hlow⟩ := hdigits high low c hdec
        rw [ha, push_escape hdec, collapse_cons, collapse_cons, absorb_of_not hhigh,
          absorb_of_not hlow, push_escape hdec]
        exact collapse_push c rest
  · exact hplain (push_of_ne ha l) (push_of_ne ha _)
termination_by l.length

variable (hmark : foreign mark = false)
include hmark

/-- What all decodings lead to depends, its foreign runs collapsed, on the collapsed text. -/
theorem collapse_full (l : List α) :
    collapse foreign stand (full mark dec l) =
      collapse foreign stand (full mark dec (collapse foreign stand l)) := by
  have hne : ∀ a, foreign a = true → a ≠ mark := by
    rintro a ha rfl
    rw [ha] at hmark
    exact absurd hmark (by decide)
  induction l with
  | nil => rfl
  | cons a l ih =>
    rw [full_cons, collapse_push hstand hdigits, ih, ← collapse_push hstand hdigits,
      collapse_cons]
    rcases ha : foreign a with _ | _
    · rw [absorb_of_not ha, full_cons]
    · rw [push_of_ne (hne a ha), collapse_cons]
      by_cases hhead : (collapse foreign stand l).head? = some stand
      · rw [absorb_eq_self ha hhead]
        obtain ⟨rest, hrest⟩ := List.head?_eq_some_iff.mp hhead
        rw [hrest, full_cons, push_of_ne (hne stand hstand)]
        exact absorb_eq_self ha (head?_absorb hstand _)
      · rw [absorb, if_pos ha, absorb, if_pos ha, if_neg hhead, full_cons,
          push_of_ne (hne stand hstand), collapse_cons, absorb, if_pos hstand]

theorem collapse_full_congr {x y : List α}
    (h : collapse foreign stand x = collapse foreign stand y) :
    collapse foreign stand (full mark dec x) = collapse foreign stand (full mark dec y) := by
  rw [collapse_full hstand hdigits hmark x, h, ← collapse_full hstand hdigits hmark y]

end Escapes

end Collapsing

end BatleHub.Lib.Escapes
