import Mathlib.Data.List.Basic
import Mathlib.Data.String.Basic

/-!
String operations of the standard library, read through the characters of the
string: the first split at a character and the removal of a leading text. The
specification of each is one equation between character lists.
-/
namespace BatleHub.Lib.Texts

section Lists
variable {α : Type*} [DecidableEq α]

/-- Split at the first occurrence of `c`, which is dropped. -/
def splitAtFirst (c : α) : List α → Option (List α × List α)
  | [] => none
  | a :: rest =>
    if a = c then some ([], rest)
    else (splitAtFirst c rest).map fun parts => (a :: parts.1, parts.2)

theorem splitAtFirst_eq_some_iff (c : α) (l before after : List α) :
    splitAtFirst c l = some (before, after) ↔ l = before ++ c :: after ∧ c ∉ before := by
  induction l generalizing before with
  | nil => simp [splitAtFirst]
  | cons a rest ih =>
    by_cases hac : a = c
    · subst hac
      cases before with
      | nil => simp [splitAtFirst]
      | cons b before =>
        simp only [splitAtFirst, if_pos, Option.some.injEq, Prod.mk.injEq, reduceCtorEq,
          false_and, List.cons_append, List.cons.injEq, List.mem_cons, not_or, false_iff]
        intro hex
        obtain ⟨⟨rfl, -⟩, hne, -⟩ := hex
        exact hne rfl
    · cases before with
      | nil => simp [splitAtFirst, hac]
      | cons b before =>
        simp only [splitAtFirst, if_neg hac, Option.map_eq_some_iff, Prod.exists,
          Prod.mk.injEq, List.cons.injEq, List.cons_append, List.mem_cons, not_or]
        constructor
        · intro hex
          obtain ⟨x, y, hxy, ⟨rfl, rfl⟩, rfl⟩ := hex
          obtain ⟨hrest, hnot⟩ := (ih x).mp hxy
          exact ⟨⟨rfl, hrest⟩, fun h => hac h.symm, hnot⟩
        · intro hex
          obtain ⟨⟨rfl, hrest⟩, -, hnot⟩ := hex
          exact ⟨before, after, (ih before).mpr ⟨hrest, hnot⟩, ⟨rfl, rfl⟩, rfl⟩

end Lists

/-- `str::split_at_checked`, in bytes: there is no cut inside a character. -/
def splitAtBytes : ℕ → List Char → Option (List Char × List Char)
  | 0, l => some ([], l)
  | _ + 1, [] => none
  | n + 1, c :: rest =>
    if c.utf8Size ≤ n + 1 then
      (splitAtBytes (n + 1 - c.utf8Size) rest).map fun parts => (c :: parts.1, parts.2)
    else none

theorem splitAtBytes_eq_some {n : ℕ} {l before after : List Char}
    (h : splitAtBytes n l = some (before, after)) : l = before ++ after := by
  induction l generalizing n before with
  | nil =>
    cases n with
    | zero =>
      obtain ⟨rfl, rfl⟩ := Prod.mk.inj (Option.some.inj h)
      rfl
    | succ n => simp [splitAtBytes] at h
  | cons c rest ih =>
    cases n with
    | zero =>
      obtain ⟨rfl, rfl⟩ := Prod.mk.inj (Option.some.inj h)
      rfl
    | succ n =>
      rw [splitAtBytes] at h
      split at h
      · obtain ⟨⟨x, y⟩, hxy, heq⟩ := Option.map_eq_some_iff.mp h
        obtain ⟨rfl, rfl⟩ := Prod.mk.inj heq
        rw [ih hxy, List.cons_append]
      · simp at h

/-- `str::split_once` at a character. -/
def splitOnce (s : String) (c : Char) : Option (String × String) :=
  (splitAtFirst c s.toList).map fun parts => (String.ofList parts.1, String.ofList parts.2)

/-- `str::rsplit_once` at a character. -/
def rsplitOnce (s : String) (c : Char) : Option (String × String) :=
  (splitAtFirst c s.toList.reverse).map fun p =>
    (String.ofList p.2.reverse, String.ofList p.1.reverse)

/-- `str::strip_prefix`. -/
def stripPrefix (s lead : String) : Option String :=
  if lead.toList.isPrefixOf s.toList then some (String.ofList (s.toList.drop lead.toList.length))
  else none

def startsWith (s lead : String) : Bool := lead.toList.isPrefixOf s.toList

/-- Unicode's `White_Space`, which `str::trim` strips. -/
def isWhiteSpace (c : Char) : Bool :=
  let n := c.toNat
  (9 ≤ n && n ≤ 13) || (0x2000 ≤ n && n ≤ 0x200a) ||
    [0x20, 0x85, 0xa0, 0x1680, 0x2028, 0x2029, 0x202f, 0x205f, 0x3000].contains n

/-- `s.trim().is_empty()`. -/
def isBlank (s : String) : Bool := s.toList.all isWhiteSpace

theorem splitOnce_eq_some_iff (s : String) (c : Char) (before after : String) :
    splitOnce s c = some (before, after) ↔
      s = before ++ String.singleton c ++ after ∧ c ∉ before.toList := by
  unfold splitOnce
  rw [Option.map_eq_some_iff]
  constructor
  · intro hex
    obtain ⟨⟨x, y⟩, hxy, heq⟩ := hex
    obtain ⟨rfl, rfl⟩ := Prod.mk.inj heq
    obtain ⟨hs, hnot⟩ := (splitAtFirst_eq_some_iff c _ _ _).mp hxy
    refine ⟨?_, by simpa using hnot⟩
    apply String.toList_inj.mp
    simp [hs]
  · intro hex
    obtain ⟨rfl, hnot⟩ := hex
    refine ⟨(before.toList, after.toList), ?_, by simp⟩
    exact (splitAtFirst_eq_some_iff c _ _ _).mpr ⟨by simp, hnot⟩

theorem rsplitOnce_eq_some_iff (s : String) (c : Char) (before after : String) :
    rsplitOnce s c = some (before, after) ↔
      s = before ++ String.singleton c ++ after ∧ c ∉ after.toList := by
  unfold rsplitOnce
  rw [Option.map_eq_some_iff]
  constructor
  · intro hex
    obtain ⟨⟨x, y⟩, hxy, heq⟩ := hex
    obtain ⟨rfl, rfl⟩ := Prod.mk.inj heq
    obtain ⟨hs, hnot⟩ := (splitAtFirst_eq_some_iff c _ _ _).mp hxy
    refine ⟨?_, by simpa using hnot⟩
    apply String.toList_inj.mp
    rw [← List.reverse_inj, hs]
    simp
  · intro hex
    obtain ⟨rfl, hnot⟩ := hex
    refine ⟨(after.toList.reverse, before.toList.reverse), ?_, by simp⟩
    exact (splitAtFirst_eq_some_iff c _ _ _).mpr ⟨by simp, by simpa using hnot⟩

/-- The two parts give the text back. -/
theorem splitOnce_injective {s t : String} {c : Char} {parts : String × String}
    (hs : splitOnce s c = some parts) (ht : splitOnce t c = some parts) : s = t := by
  obtain ⟨before, after⟩ := parts
  rw [((splitOnce_eq_some_iff _ _ _ _).mp hs).1, ((splitOnce_eq_some_iff _ _ _ _).mp ht).1]

theorem stripPrefix_eq_some_iff (s lead rest : String) :
    stripPrefix s lead = some rest ↔ s = lead ++ rest := by
  unfold stripPrefix
  constructor
  · intro h
    split at h
    · rename_i hlead
      obtain ⟨tail, htail⟩ := List.isPrefixOf_iff_prefix.mp hlead
      rw [← htail, List.drop_left, Option.some.injEq] at h
      apply String.toList_inj.mp
      rw [String.toList_append, ← h, String.toList_ofList, htail]
    · simp at h
  · intro heq
    subst heq
    simp [List.isPrefixOf_iff_prefix]

theorem stripPrefix_append (lead rest : String) : stripPrefix (lead ++ rest) lead = some rest :=
  (stripPrefix_eq_some_iff _ _ _).mpr rfl

theorem startsWith_iff (s lead : String) :
    startsWith s lead = true ↔ ∃ rest, s = lead ++ rest := by
  unfold startsWith
  rw [List.isPrefixOf_iff_prefix]
  constructor
  · rintro ⟨tail, htail⟩
    refine ⟨String.ofList tail, String.toList_inj.mp ?_⟩
    rw [String.toList_append, String.toList_ofList, htail]
  · rintro ⟨rest, rfl⟩
    rw [String.toList_append]
    exact List.prefix_append _ _

theorem startsWith_append (lead rest : String) : startsWith (lead ++ rest) lead = true :=
  (startsWith_iff _ _).mpr ⟨rest, rfl⟩

/-- Two leads neither of which begins the other are not confused. -/
theorem startsWith_append_eq_false {lead lead' : String} (rest : String)
    (h : ¬ lead.toList <+: lead'.toList) (h' : ¬ lead'.toList <+: lead.toList) :
    startsWith (lead' ++ rest) lead = false := by
  rw [Bool.eq_false_iff]
  intro hlead
  have hleads := List.isPrefixOf_iff_prefix.mp hlead
  rw [String.toList_append] at hleads
  rcases List.prefix_or_prefix_of_prefix hleads (List.prefix_append _ _) with hshort | hlong
  · exact h hshort
  · exact h' hlong

theorem stripPrefix_append_eq_none {lead lead' : String} (rest : String)
    (h : ¬ lead.toList <+: lead'.toList) (h' : ¬ lead'.toList <+: lead.toList) :
    stripPrefix (lead' ++ rest) lead = none := by
  have hnot := startsWith_append_eq_false rest h h'
  unfold startsWith at hnot
  unfold stripPrefix
  rw [hnot]
  rfl

/-- A text is cut at its last separator in one way. -/
theorem append_cons_inj_of_notMem {α : Type*} {sep : α} {a b x y : List α}
    (hx : sep ∉ x) (hy : sep ∉ y) (h : a ++ sep :: x = b ++ sep :: y) : a = b := by
  rcases List.append_eq_append_iff.mp h with ⟨mid, hb, hmid⟩ | ⟨mid, ha, hmid⟩
  · cases mid with
    | nil => simpa using hb.symm
    | cons c rest =>
      rw [List.cons_append, List.cons.injEq] at hmid
      exact absurd (by rw [hmid.2]; simp) hx
  · cases mid with
    | nil => simpa using ha
    | cons c rest =>
      rw [List.cons_append, List.cons.injEq] at hmid
      exact absurd (by rw [hmid.2]; simp) hy

/-- Two lists cut at their first marks agree piece by piece. -/
theorem append_cons_inj_of_forall {α : Type*} {p : α → Prop} {a b x y : List α} {m n : α}
    (ha : ∀ c ∈ a, ¬ p c) (hb : ∀ c ∈ b, ¬ p c) (hm : p m) (hn : p n)
    (h : a ++ m :: x = b ++ n :: y) : a = b ∧ m = n ∧ x = y := by
  induction a generalizing b with
  | nil =>
    cases b with
    | nil => exact ⟨rfl, List.cons.inj h⟩
    | cons c b => exact absurd ((List.cons.inj h).1 ▸ hm) (hb c (by simp))
  | cons c a ih =>
    cases b with
    | nil => exact absurd ((List.cons.inj h).1.symm ▸ hn) (ha c (by simp))
    | cons d b =>
      obtain ⟨rfl, hrest⟩ := List.cons.inj h
      obtain ⟨rfl, hmarks⟩ := ih (fun e he => ha e (List.mem_cons_of_mem _ he))
        (fun e he => hb e (List.mem_cons_of_mem _ he)) hrest
      exact ⟨rfl, hmarks⟩

end BatleHub.Lib.Texts
