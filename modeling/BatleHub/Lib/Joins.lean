import BatleHub.Lib.Texts
import Mathlib.Data.Nat.Notation

/-!
Texts joined by a separator. Where the separator is in none of the fields a joined
text is read back in one way: a field ends at the first separator. A list of fields
needs them nonempty as well, since no field and one empty field join to the same.
-/
namespace BatleHub.Lib.Joins

section Lists
variable {α : Type*} [DecidableEq α] {sep : α}

/-- A field ends at the first separator. -/
theorem field_inj {a b x y : List α} (ha : sep ∉ a) (hb : sep ∉ b)
    (h : a ++ sep :: x = b ++ sep :: y) : a = b ∧ x = y := by
  have hleft := (Texts.splitAtFirst_eq_some_iff sep _ a x).mpr ⟨rfl, ha⟩
  have hright := (Texts.splitAtFirst_eq_some_iff sep _ b y).mpr ⟨rfl, hb⟩
  rw [h, hright] at hleft
  have hsame := Option.some.inj hleft
  exact ⟨(congrArg Prod.fst hsame).symm, (congrArg Prod.snd hsame).symm⟩

/-- The last field starts behind the last separator. -/
theorem last_field_inj {a b x y : List α} (hx : sep ∉ x) (hy : sep ∉ y)
    (h : a ++ sep :: x = b ++ sep :: y) : a = b ∧ x = y := by
  have hreverse : x.reverse ++ sep :: a.reverse = y.reverse ++ sep :: b.reverse := by
    have hrev := congrArg List.reverse h
    simpa using hrev
  obtain ⟨hlast, hfront⟩ := field_inj (by simpa using hx) (by simpa using hy) hreverse
  exact ⟨List.reverse_injective hfront, List.reverse_injective hlast⟩

omit [DecidableEq α] in
/-- A field without separators is no longer text with one. -/
theorem ne_append_cons {a b x : List α} (ha : sep ∉ a) : a ≠ b ++ sep :: x := by
  intro h
  apply ha
  rw [h]
  simp

/-- One separator between two fields without one: any such cut of the text is this one. -/
theorem cut_inj {a b x y : List α} (ha : sep ∉ a) (hx : sep ∉ x)
    (h : a ++ sep :: x = b ++ sep :: y) : a = b ∧ x = y := by
  have hcount := congrArg (List.count sep) h
  simp only [List.count_append, List.count_cons_self, List.count_eq_zero_of_not_mem ha,
    List.count_eq_zero_of_not_mem hx] at hcount
  have hb : List.count sep b = 0 := by omega
  exact field_inj ha (List.count_eq_zero.mp hb) h

theorem intercalate_injective {l m : List (List α)} (hl : ∀ a ∈ l, a ≠ [] ∧ sep ∉ a)
    (hm : ∀ a ∈ m, a ≠ [] ∧ sep ∉ a) (h : [sep].intercalate l = [sep].intercalate m) : l = m := by
  induction l generalizing m with
  | nil =>
    cases m with
    | nil => rfl
    | cons b rest =>
      exfalso
      have hb := (hm b List.mem_cons_self).1
      cases rest with
      | nil => exact hb (by simpa using h.symm)
      | cons c rest => simp at h
  | cons a l ih =>
    obtain ⟨hne, hsep⟩ := hl a List.mem_cons_self
    have hl' : ∀ x ∈ l, x ≠ [] ∧ sep ∉ x := fun x hx => hl x (List.mem_cons_of_mem a hx)
    cases m with
    | nil =>
      exfalso
      cases l with
      | nil => exact hne (by simpa using h)
      | cons c l => simp at h
    | cons b m =>
      obtain ⟨-, hsep'⟩ := hm b List.mem_cons_self
      have hm' : ∀ x ∈ m, x ≠ [] ∧ sep ∉ x := fun x hx => hm x (List.mem_cons_of_mem b hx)
      cases l with
      | nil =>
        cases m with
        | nil => simpa using h
        | cons c m =>
          exfalso
          have heq : a = b ++ sep :: [sep].intercalate (c :: m) := by simpa using h
          exact ne_append_cons hsep heq
      | cons c l =>
        cases m with
        | nil =>
          exfalso
          have heq : b = a ++ sep :: [sep].intercalate (c :: l) := by simpa using h.symm
          exact ne_append_cons hsep' heq
        | cons d m =>
          have heq : a ++ sep :: [sep].intercalate (c :: l) =
              b ++ sep :: [sep].intercalate (d :: m) := by simpa using h
          obtain ⟨rfl, hrest⟩ := field_inj hsep hsep' heq
          rw [ih hl' hm' hrest]

end Lists

/-- `slice::join` with one character between the texts. -/
def join (sep : Char) (l : List String) : String := (String.singleton sep).intercalate l

theorem join_injective {sep : Char} {l m : List String}
    (hl : ∀ s ∈ l, s ≠ "" ∧ sep ∉ s.toList) (hm : ∀ s ∈ m, s ≠ "" ∧ sep ∉ s.toList)
    (h : join sep l = join sep m) : l = m := by
  have hchars := congrArg String.toList h
  simp only [join, String.toList_intercalate, String.toList_singleton] at hchars
  have hplain : ∀ k : List String, (∀ s ∈ k, s ≠ "" ∧ sep ∉ s.toList) →
      ∀ a ∈ k.map String.toList, a ≠ [] ∧ sep ∉ a := by
    intro k hk a ha
    obtain ⟨s, hs, rfl⟩ := List.mem_map.mp ha
    exact ⟨by simpa using (hk s hs).1, (hk s hs).2⟩
  have hlists := intercalate_injective (hplain l hl) (hplain m hm) hchars
  exact List.map_injective_iff.mpr (fun _ _ => String.toList_inj.mp) hlists

/-- A text joined of texts without `c` is without `c`. -/
theorem notMem_join {sep c : Char} (hne : c ≠ sep) {l : List String}
    (h : ∀ s ∈ l, c ∉ s.toList) : c ∉ (join sep l).toList := by
  simp only [join, String.toList_intercalate, String.toList_singleton]
  induction l with
  | nil => simp
  | cons s l ih =>
    have hrest := ih fun t ht => h t (List.mem_cons_of_mem s ht)
    cases l with
    | nil => simpa using h s List.mem_cons_self
    | cons t l =>
      have hs := h s List.mem_cons_self
      simp only [List.map_cons, List.intercalate_cons_cons, List.mem_append, List.mem_singleton,
        not_or] at hrest ⊢
      exact ⟨⟨hs, hne⟩, hrest⟩

theorem mem_join_of_mem (sep : Char) {c : Char} {l : List String} {s : String} (hs : s ∈ l)
    (hc : c ∈ s.toList) : c ∈ (join sep l).toList := by
  simp only [join, String.toList_intercalate, String.toList_singleton]
  induction l with
  | nil => cases hs
  | cons t l ih =>
    cases l with
    | nil =>
      obtain rfl := List.mem_singleton.mp hs
      simpa using hc
    | cons t' l =>
      rw [List.map_cons, List.map_cons, List.intercalate_cons_cons]
      rcases List.mem_cons.mp hs with rfl | hrest
      · exact List.mem_append_left _ (List.mem_append_left _ hc)
      · exact List.mem_append_right _ (ih hrest)

/-- A number is written in digits. -/
theorem isDigit_of_mem_toString {n : ℕ} {c : Char} (h : c ∈ (toString n).toList) :
    c.isDigit = true := by
  rw [Nat.toString_eq_ofList_toDigits, String.toList_ofList] at h
  exact Nat.isDigit_of_mem_toDigits (by decide) (by decide) h

theorem toString_ne_empty (n : ℕ) : toString n ≠ "" := by
  rw [Nat.toString_eq_ofList_toDigits]
  intro h
  have hdigits : Nat.toDigits 10 n = [] := by simpa using congrArg String.toList h
  exact Nat.toDigits_ne_nil hdigits

theorem toString_injective {m n : ℕ} (h : toString m = toString n) : m = n := by
  rw [Nat.toString_eq_ofList_toDigits, Nat.toString_eq_ofList_toDigits] at h
  have hdigits := String.ofList_inj.mp h
  rw [← Nat.ofDigitChars_toDigits (b := 10) (n := m) (by decide) (by decide), hdigits,
    Nat.ofDigitChars_toDigits (by decide) (by decide)]

section Integers

theorem intText_eq (a : ℤ) :
    (toString a).toList = (if a < 0 then ['-'] else []) ++ (toString a.natAbs).toList := by
  cases a with
  | ofNat n => simp [toString, Int.repr]
  | negSucc n => simp [toString, Int.repr]

theorem minus_notMem_toString (n : ℕ) : '-' ∉ (toString n).toList := by
  intro h
  have hdigit := isDigit_of_mem_toString h
  simp at hdigit

theorem intText_injective {a b : ℤ} (h : toString a = toString b) : a = b := by
  have hchars := congrArg String.toList h
  rw [intText_eq, intText_eq] at hchars
  by_cases ha : a < 0
  · by_cases hb : b < 0
    · rw [if_pos ha, if_pos hb] at hchars
      have habs := toString_injective (String.toList_inj.mp (List.append_cancel_left hchars))
      omega
    · rw [if_pos ha, if_neg hb, List.nil_append] at hchars
      exact absurd (hchars ▸ List.mem_cons_self) (minus_notMem_toString b.natAbs)
  · by_cases hb : b < 0
    · rw [if_neg ha, if_pos hb, List.nil_append] at hchars
      exact absurd (hchars ▸ List.mem_cons_self) (minus_notMem_toString a.natAbs)
    · rw [if_neg ha, if_neg hb] at hchars
      have habs := toString_injective (String.toList_inj.mp (List.append_cancel_left hchars))
      omega

/-- An integer is written in digits, with a minus before. -/
theorem notMem_intText {c : Char} (hdigit : c.isDigit = false) (hminus : c ≠ '-') (a : ℤ) :
    c ∉ (toString a).toList := by
  rw [intText_eq, List.mem_append, not_or]
  constructor
  · split
    · simpa using hminus
    · simp
  · intro h
    rw [isDigit_of_mem_toString h] at hdigit
    cases hdigit

end Integers

end BatleHub.Lib.Joins
