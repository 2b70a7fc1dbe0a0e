import Mathlib.Data.List.Infix
import Mathlib.Data.List.DropRight

/-!
A text cut into segments at a separator, as a path is. The segments of one text extend
those of another exactly when the text goes on with a separator, so a directory is a
proper prefix of what lies below it.
-/
namespace BatleHub.Lib.Segments

variable {α : Type*} [DecidableEq α]

/-- `q` lies strictly below `d`. -/
def below {β : Type*} [DecidableEq β] (d q : List β) : Bool := d.isPrefixOf q && decide (q ≠ d)

theorem below_iff {β : Type*} [DecidableEq β] (d q : List β) :
    below d q = true ↔ d <+: q ∧ q ≠ d := by
  simp [below, List.isPrefixOf_iff_prefix]

theorem below_iff_exists {β : Type*} [DecidableEq β] (d q : List β) :
    below d q = true ↔ ∃ rest, rest ≠ [] ∧ q = d ++ rest := by
  rw [below_iff]
  constructor
  · rintro ⟨⟨rest, rfl⟩, hne⟩
    refine ⟨rest, ?_, rfl⟩
    rintro rfl
    exact hne (List.append_nil d)
  · rintro ⟨rest, hrest, rfl⟩
    refine ⟨List.prefix_append d rest, ?_⟩
    intro h
    exact hrest (List.append_right_eq_self.mp h)

theorem below_trans {β : Type*} [DecidableEq β] {d p q : List β} (hp : d <+: p)
    (hq : below p q = true) : below d q = true := by
  obtain ⟨rest, hrest, rfl⟩ := (below_iff_exists p q).mp hq
  obtain ⟨mid, rfl⟩ := hp
  refine (below_iff_exists d _).mpr ⟨mid ++ rest, ?_, by rw [List.append_assoc]⟩
  intro h
  exact hrest (List.append_eq_nil_iff.mp h).2

omit [DecidableEq α] in
theorem intercalate_append (a : α) {xs ys : List (List α)} (hx : xs ≠ []) (hy : ys ≠ []) :
    [a].intercalate (xs ++ ys) = [a].intercalate xs ++ a :: [a].intercalate ys := by
  induction xs with
  | nil => exact absurd rfl hx
  | cons x xs ih =>
    cases xs with
    | nil =>
      rw [List.singleton_append, List.intercalate_cons_of_ne_nil hy]
      simp
    | cons x' xs =>
      have hrest : x' :: xs ≠ [] := List.cons_ne_nil x' xs
      have hmore : x' :: xs ++ ys ≠ [] := List.append_ne_nil_of_left_ne_nil hrest ys
      rw [List.cons_append, List.intercalate_cons_of_ne_nil hmore, ih hrest,
        List.intercalate_cons_of_ne_nil hrest]
      simp only [List.append_assoc]

/-- What lies below the segments of `x` goes on with a separator. -/
theorem below_splitOn_iff (a : α) (x y : List α) :
    below (x.splitOn a) (y.splitOn a) = true ↔ ∃ rest, y = x ++ a :: rest := by
  rw [below_iff_exists]
  constructor
  · rintro ⟨tail, htail, heq⟩
    refine ⟨[a].intercalate tail, ?_⟩
    calc y = [a].intercalate (y.splitOn a) := (List.intercalate_splitOn a).symm
      _ = [a].intercalate (x.splitOn a ++ tail) := by rw [heq]
      _ = [a].intercalate (x.splitOn a) ++ a :: [a].intercalate tail :=
        intercalate_append a (List.splitOn_ne_nil a x) htail
      _ = x ++ a :: [a].intercalate tail := by rw [List.intercalate_splitOn]
  · rintro ⟨rest, rfl⟩
    exact ⟨rest.splitOn a, List.splitOn_ne_nil a rest, List.splitOn_append_cons_self x rest⟩

theorem splitOn_injective (a : α) {x y : List α} (h : x.splitOn a = y.splitOn a) : x = y := by
  calc x = [a].intercalate (x.splitOn a) := (List.intercalate_splitOn a).symm
    _ = [a].intercalate (y.splitOn a) := by rw [h]
    _ = y := List.intercalate_splitOn a

/-- A segment is a part of the text without the separator. -/
theorem of_mem_splitOn {a : α} {l segment : List α} (h : segment ∈ l.splitOn a) :
    a ∉ segment ∧ ∀ b ∈ segment, b ∈ l := by
  induction l generalizing segment with
  | nil =>
    rw [List.splitOn_nil, List.mem_singleton] at h
    subst h
    exact ⟨List.not_mem_nil, fun b hb => hb⟩
  | cons c l ih =>
    rw [List.splitOn_cons_eq_if_modifyHead] at h
    by_cases hc : c = a
    · rw [if_pos (beq_iff_eq.mpr hc), List.mem_cons] at h
      rcases h with rfl | hrest
      · exact ⟨List.not_mem_nil, fun b hb => absurd hb List.not_mem_nil⟩
      · obtain ⟨hnot, hall⟩ := ih hrest
        exact ⟨hnot, fun b hb => List.mem_cons_of_mem c (hall b hb)⟩
    · rw [if_neg (fun heq => hc (beq_iff_eq.mp heq))] at h
      obtain ⟨first, others, hsplit⟩ := List.exists_cons_of_ne_nil (List.splitOn_ne_nil a l)
      rw [hsplit, List.modifyHead_cons, List.mem_cons] at h
      rcases h with rfl | hrest
      · obtain ⟨hnot, hall⟩ := ih (hsplit ▸ List.mem_cons_self)
        refine ⟨fun hmem => (List.mem_cons.mp hmem).elim (fun heq => hc heq.symm) hnot, ?_⟩
        intro b hb
        rcases List.mem_cons.mp hb with rfl | hmem
        · exact List.mem_cons_self
        · exact List.mem_cons_of_mem c (hall b hmem)
      · obtain ⟨hnot, hall⟩ := ih (hsplit ▸ List.mem_cons_of_mem first hrest)
        exact ⟨hnot, fun b hb => List.mem_cons_of_mem c (hall b hb)⟩

omit [DecidableEq α] in
theorem flatMap_ended {c : α} {pieces : List (List α)} (h : pieces ≠ []) :
    pieces.flatMap (· ++ [c]) = [c].intercalate pieces ++ [c] := by
  induction pieces with
  | nil => exact absurd rfl h
  | cons piece pieces ih =>
    rw [List.flatMap_cons]
    cases pieces with
    | nil => simp
    | cons next pieces =>
      rw [ih (List.cons_ne_nil next pieces),
        List.intercalate_cons_of_ne_nil (List.cons_ne_nil next pieces)]
      simp only [List.append_assoc]

/-- Pieces that each end in a separator are split into themselves, with nothing after them. -/
theorem splitOn_flatMap_ended {c : α} {pieces : List (List α)} (h : ∀ piece ∈ pieces, c ∉ piece) :
    (pieces.flatMap (· ++ [c])).splitOn c = pieces ++ [[]] := by
  induction pieces with
  | nil => exact List.splitOn_nil c
  | cons piece pieces ih =>
    rw [List.flatMap_cons, List.append_assoc, List.singleton_append,
      List.splitOn_append_cons_self_of_not_mem (h piece List.mem_cons_self),
      ih fun piece' hpiece' => h piece' (List.mem_cons_of_mem piece hpiece'), List.cons_append]

/-- A text that ends in a separator is its pieces, each with one. -/
theorem eq_flatMap_dropLast_splitOn {c : α} {l : List α} (h : l.getLast? = some c) :
    l = (l.splitOn c).dropLast.flatMap (· ++ [c]) := by
  obtain ⟨body, rfl⟩ := List.getLast?_eq_some_iff.mp h
  rw [List.splitOn_append_cons_self, List.splitOn_nil, List.dropLast_concat,
    flatMap_ended (List.splitOn_ne_nil c body), List.intercalate_splitOn]

/-- `segment` reaches from a separator or the start to a separator or the end. -/
structure Bounded (a : α) (before segment after : List α) : Prop where
  notMem : a ∉ segment
  left : before = [] ∨ ∃ lead, before = lead ++ [a]
  right : after = [] ∨ ∃ rest, after = a :: rest

theorem splitOn_bounded {a : α} {before segment after : List α}
    (h : Bounded a before segment after) :
    ∃ xs ys, (before ++ segment ++ after).splitOn a = xs ++ segment :: ys ∧
      (after ≠ [] → ys ≠ []) := by
  have hsegment : ∃ ys, (segment ++ after).splitOn a = segment :: ys ∧ (after ≠ [] → ys ≠ []) := by
    rcases h.right with rfl | ⟨rest, rfl⟩
    · rw [List.append_nil]
      exact ⟨[], List.splitOn_eq_singleton h.notMem, fun hne => absurd rfl hne⟩
    · exact ⟨rest.splitOn a, List.splitOn_append_cons_self_of_not_mem h.notMem rest,
        fun _ => List.splitOn_ne_nil a rest⟩
  obtain ⟨ys, hys, hne⟩ := hsegment
  rcases h.left with rfl | ⟨lead, rfl⟩
  · exact ⟨[], ys, hys, hne⟩
  · refine ⟨lead.splitOn a, ys, ?_, hne⟩
    rw [← hys, ← List.splitOn_append_cons_self]
    simp

theorem exists_bounded {a : α} {l segment : List α} {xs ys : List (List α)}
    (h : l.splitOn a = xs ++ segment :: ys) :
    ∃ before after, l = before ++ segment ++ after ∧ Bounded a before segment after ∧
      (ys ≠ [] → after ≠ []) := by
  have hmem : segment ∈ l.splitOn a := by
    rw [h]
    simp
  have hright : ∃ after, [a].intercalate (segment :: ys) = segment ++ after ∧
      (after = [] ∨ ∃ rest, after = a :: rest) ∧ (ys ≠ [] → after ≠ []) := by
    by_cases hys : ys = []
    · subst hys
      exact ⟨[], by simp, Or.inl rfl, fun hne => absurd rfl hne⟩
    · refine ⟨a :: [a].intercalate ys, ?_, Or.inr ⟨_, rfl⟩, fun _ => List.cons_ne_nil _ _⟩
      rw [List.intercalate_cons_of_ne_nil hys]
      simp
  obtain ⟨after, hafter, hbound, hne⟩ := hright
  have hl : l = [a].intercalate (xs ++ segment :: ys) := by rw [← h, List.intercalate_splitOn]
  by_cases hxs : xs = []
  · subst hxs
    exact ⟨[], after, hl.trans hafter, ⟨(of_mem_splitOn hmem).1, Or.inl rfl, hbound⟩, hne⟩
  · refine ⟨[a].intercalate xs ++ [a], after, ?_,
      ⟨(of_mem_splitOn hmem).1, Or.inr ⟨_, rfl⟩, hbound⟩, hne⟩
    rw [hl, intercalate_append a hxs (List.cons_ne_nil _ _), hafter]
    simp

/-- A map of texts that leaves the symbols of a kind where they stand. -/
structure Keeps (P : α → Prop) (f : List α → List α) : Prop where
  nil : f [] = []
  append_cons : ∀ a, P a → ∀ x y, f (x ++ a :: y) = f x ++ a :: f y

/-- Such a map keeps the segments that consist of these symbols. -/
theorem Keeps.splitOn_eq {P : α → Prop} {f : List α → List α} (hf : Keeps P f) {a : α} (ha : P a)
    {l segment : List α} (hsegment : ∀ b ∈ segment, P b) {xs ys : List (List α)}
    (h : l.splitOn a = xs ++ segment :: ys) :
    ∃ xs' ys', (f l).splitOn a = xs' ++ segment :: ys' ∧ (ys ≠ [] → ys' ≠ []) := by
  obtain ⟨before, after, rfl, hbound, hne⟩ := exists_bounded h
  have hfront : ∀ (t x : List α), (∀ b ∈ t, P b) → f (t ++ x) = t ++ f x := by
    intro t x ht
    induction t with
    | nil => rfl
    | cons b t ih =>
      have hb := hf.append_cons b (ht b List.mem_cons_self) [] (t ++ x)
      rw [List.nil_append, hf.nil, List.nil_append] at hb
      rw [List.cons_append, hb, ih (fun c hc => ht c (List.mem_cons_of_mem b hc))]
      rfl
  have hafter : (f after = [] ∨ ∃ rest, f after = a :: rest) ∧ (after ≠ [] → f after ≠ []) := by
    rcases hbound.right with rfl | ⟨rest, rfl⟩
    · exact ⟨Or.inl hf.nil, fun hnil => absurd rfl hnil⟩
    · have hcons := hf.append_cons a ha [] rest
      rw [List.nil_append, hf.nil, List.nil_append] at hcons
      exact ⟨Or.inr ⟨_, hcons⟩, fun _ => by rw [hcons]; exact List.cons_ne_nil _ _⟩
  have hfl : ∃ front, f (before ++ segment ++ after) = front ++ segment ++ f after ∧
      (front = [] ∨ ∃ lead, front = lead ++ [a]) := by
    rcases hbound.left with rfl | ⟨lead, rfl⟩
    · exact ⟨[], hfront segment after hsegment, Or.inl rfl⟩
    · refine ⟨f lead ++ [a], ?_, Or.inr ⟨_, rfl⟩⟩
      have hcons := hf.append_cons a ha lead (segment ++ after)
      rw [hfront segment after hsegment] at hcons
      simpa using hcons
  obtain ⟨front, heq, hleft⟩ := hfl
  obtain ⟨xs', ys', hsplit, hne'⟩ := splitOn_bounded ⟨hbound.notMem, hleft, hafter.1⟩
  rw [heq]
  exact ⟨xs', ys', hsplit, fun hys => hne' (hafter.2 (hne hys))⟩

/-- The last segment of a text and what stands before it. -/
theorem exists_last_segment (a : α) (l : List α) :
    a ∉ l ∨ ∃ before last, l = before ++ a :: last ∧ a ∉ last := by
  induction l with
  | nil => exact Or.inl (List.not_mem_nil)
  | cons b l ih =>
    rcases ih with hnot | ⟨before, last, rfl, hlast⟩
    · by_cases hb : a = b
      · subst hb
        exact Or.inr ⟨[], l, rfl, hnot⟩
      · refine Or.inl ?_
        rw [List.mem_cons, not_or]
        exact ⟨hb, hnot⟩
    · exact Or.inr ⟨b :: before, last, rfl, hlast⟩

omit [DecidableEq α] in
/-- A text cut in two where the second part has no separator. -/
theorem append_eq_append_cons_of_notMem {a : α} {x y before rest : List α} (hy : a ∉ y)
    (h : x ++ y = before ++ a :: rest) : ∃ mid, x = before ++ a :: mid ∧ rest = mid ++ y := by
  rcases List.append_eq_append_iff.mp h with ⟨mid, hb, hmid⟩ | ⟨mid, hx, hmid⟩
  · exact absurd (by rw [hmid]; simp) hy
  · cases mid with
    | nil => exact absurd (by rw [List.nil_append] at hmid; rw [← hmid]; simp) hy
    | cons c mid =>
      rw [List.cons_append, List.cons.injEq] at hmid
      obtain ⟨rfl, hrest⟩ := hmid
      exact ⟨mid, hx, hrest⟩

section Words

variable {β : Type*} {p : β → Bool} {blanks word rest : List β}

/-- Separators in front are no words. -/
theorem words_append_of_blank (h : ∀ a ∈ blanks, p a = true) (text : List β) :
    ((blanks ++ text).splitOnP p).filter (fun word => decide (word ≠ [])) =
      (text.splitOnP p).filter fun word => decide (word ≠ []) := by
  induction blanks with
  | nil => rfl
  | cons a blanks ih =>
    rw [List.forall_mem_cons] at h
    rw [List.cons_append, List.splitOnP_cons_eq_if_modifyHead, if_pos h.1,
      List.filter_cons_of_neg (by simp), ih h.2]

theorem head_words (hblanks : ∀ a ∈ blanks, p a = true) (hword : ∀ a ∈ word, p a = false)
    (hne : word ≠ []) (hrest : ∀ a ∈ rest.head?, p a = true) :
    (((blanks ++ word ++ rest).splitOnP p).filter fun word => decide (word ≠ [])).head? =
      some word := by
  have hfirst : ∃ others, (word ++ rest).splitOnP p = word :: others := by
    cases rest with
    | nil => exact ⟨[], by rw [List.append_nil, List.splitOnP_eq_singleton hword]⟩
    | cons a rest =>
      exact ⟨_, List.splitOnP_append_cons_of_forall_mem hword a (hrest a rfl) rest⟩
  obtain ⟨others, hothers⟩ := hfirst
  rw [List.append_assoc, words_append_of_blank hblanks, hothers,
    List.filter_cons_of_pos (by simpa using hne), List.head?_cons]

/-- The first word of a text has only separators before it and reaches to the next one or to
the end. -/
theorem head_words_eq_some_iff (text : List β) :
    ((text.splitOnP p).filter fun word => decide (word ≠ [])).head? = some word ↔
      (word ≠ [] ∧ ∀ a ∈ word, p a = false) ∧
        ∃ blanks rest, text = blanks ++ word ++ rest ∧ (∀ a ∈ blanks, p a = true) ∧
          ∀ a ∈ rest.head?, p a = true := by
  constructor
  · intro h
    have hblanks : ∀ a ∈ text.takeWhile p, p a = true := fun a => List.mem_takeWhile_imp
    have htext : text = text.takeWhile p ++ text.dropWhile p :=
      List.takeWhile_append_dropWhile.symm
    have hstart := List.head?_dropWhile_not p text
    generalize text.takeWhile p = blanks at hblanks htext
    generalize text.dropWhile p = tail at htext hstart
    cases tail with
    | nil =>
      rw [htext, words_append_of_blank hblanks] at h
      cases h
    | cons a tail =>
      have hplain : ∀ b ∈ (a :: tail).takeWhile (fun b => !p b), p b = false := by
        intro b hb
        simpa using List.mem_takeWhile_imp hb
      have hne : (a :: tail).takeWhile (fun b => !p b) ≠ [] := by
        rw [List.takeWhile_cons_of_pos (by simpa using hstart)]
        exact List.cons_ne_nil _ _
      have hnext : ∀ b ∈ ((a :: tail).dropWhile fun b => !p b).head?, p b = true := by
        intro b hb
        have hstop := List.head?_dropWhile_not (fun b => !p b) (a :: tail)
        rw [Option.mem_def.mp hb] at hstop
        simpa using hstop
      have hsplit : text = blanks ++ (a :: tail).takeWhile (fun b => !p b) ++
          (a :: tail).dropWhile fun b => !p b := by
        rw [List.append_assoc, List.takeWhile_append_dropWhile, htext]
      have hword := head_words hblanks hplain hne hnext
      rw [← hsplit, h] at hword
      obtain rfl := Option.some.inj hword
      exact ⟨⟨hne, hplain⟩, blanks, _, hsplit, hblanks, hnext⟩
  · intro h
    obtain ⟨⟨hne, hplain⟩, blanks, rest, rfl, hblanks, hrest⟩ := h
    exact head_words hblanks hplain hne hrest

end Words

end BatleHub.Lib.Segments
