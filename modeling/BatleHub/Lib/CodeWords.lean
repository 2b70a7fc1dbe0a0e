import Mathlib.Data.Nat.Notation
import Mathlib.Data.List.Basic

/-!
Texts as code words, one after the other. A text that is cut after some symbols may break off
within a word. Where the start of a word tells that the word is not finished, dropping the
unfinished one leaves the longest run of whole words that fits.
-/
namespace BatleHub.Lib.CodeWords

variable {α β : Type*} (encode : α → List β) (head : β → List β → Except (Option ℕ) ℕ)

/-- Where the words end, and how long what is no word is, unless the input ends within it. -/
structure Broken where
  validUpTo : ℕ
  errorLen : Option ℕ
  deriving DecidableEq, Repr

/-- The first thing that is no word, from behind `done` symbols, the next `taken` of which are
read. `head` says of a symbol and what follows it how many of these belong to its word. -/
def scan : (done taken : ℕ) → List β → Option Broken
  | _, _, [] => none
  | done, 0, b :: rest =>
    match head b rest with
    | .ok taken => scan (done + 1) taken rest
    | .error errorLen => some ⟨done, errorLen⟩
  | done, taken + 1, _ :: rest => scan (done + 1) taken rest

/-- The symbols without an unfinished word at their end. -/
def trim (symbols : List β) : List β :=
  match scan head 0 0 symbols with
  | some ⟨validUpTo, none⟩ => symbols.take validUpTo
  | _ => symbols

theorem trim_prefix (symbols : List β) : trim head symbols <+: symbols := by
  unfold trim
  split
  · exact List.take_prefix _ _
  · exact List.prefix_refl _

/-- As many elements as `n` symbols have room for. -/
def fitting : ℕ → List α → List α
  | _, [] => []
  | n, a :: l => if (encode a).length ≤ n then a :: fitting (n - (encode a).length) l else []

/-- What fits is the longest run that does. -/
theorem fitting_longest (n : ℕ) (l : List α) :
    fitting encode n l <+: l ∧ ((fitting encode n l).flatMap encode).length ≤ n ∧
      ∀ p, p <+: l → (p.flatMap encode).length ≤ n → p <+: fitting encode n l := by
  induction l generalizing n with
  | nil =>
    refine ⟨List.prefix_refl _, Nat.zero_le n, ?_⟩
    intro p hp _
    exact hp
  | cons a l ih =>
    obtain ⟨hrun, hfits, hlongest⟩ := ih (n - (encode a).length)
    unfold fitting
    by_cases ha : (encode a).length ≤ n
    · rw [if_pos ha]
      refine ⟨List.cons_prefix_cons.mpr ⟨rfl, hrun⟩, ?_, ?_⟩
      · rw [List.flatMap_cons, List.length_append]
        omega
      · intro p hp hlen
        cases p with
        | nil => exact List.nil_prefix
        | cons a' p =>
          obtain ⟨rfl, htail⟩ := List.cons_prefix_cons.mp hp
          rw [List.flatMap_cons, List.length_append] at hlen
          exact List.cons_prefix_cons.mpr ⟨rfl, hlongest p htail (by omega)⟩
    · rw [if_neg ha]
      refine ⟨List.nil_prefix, Nat.zero_le n, ?_⟩
      intro p hp hlen
      cases p with
      | nil => exact List.nil_prefix
      | cons a' p =>
        obtain ⟨rfl, -⟩ := List.cons_prefix_cons.mp hp
        rw [List.flatMap_cons, List.length_append] at hlen
        omega

/-- The head of a word is read with the word behind it, and tells when the input ends in it. -/
structure Telling : Prop where
  whole : ∀ a, ∃ b tail, encode a = b :: tail ∧ ∀ rest, head b (tail ++ rest) = .ok tail.length
  unfinished : ∀ a b tail, encode a = b :: tail →
    ∀ k < tail.length, head b (tail.take k) = .error none

variable {encode head}

theorem scan_taken (done : ℕ) (word rest : List β) :
    scan head done word.length (word ++ rest) = scan head (done + word.length) 0 rest := by
  induction word generalizing done with
  | nil => rfl
  | cons b word ih =>
    rw [List.length_cons, List.cons_append, scan, ih]
    congr 1
    omega

theorem Telling.scan_word (h : Telling encode head) (done : ℕ) (a : α) (rest : List β) :
    scan head done 0 (encode a ++ rest) = scan head (done + (encode a).length) 0 rest := by
  obtain ⟨b, tail, hword, hhead⟩ := h.whole a
  rw [hword, List.cons_append, scan, hhead rest]
  dsimp only
  rw [scan_taken, List.length_cons]
  congr 1
  omega

theorem Telling.scan_unfinished (h : Telling encode head) (done : ℕ) {a : α} {n : ℕ}
    (hpos : 0 < n) (hn : n < (encode a).length) :
    scan head done 0 ((encode a).take n) = some ⟨done, none⟩ := by
  obtain ⟨b, tail, hword, -⟩ := h.whole a
  obtain ⟨k, rfl⟩ := Nat.exists_eq_add_of_lt hpos
  rw [hword, List.length_cons] at hn
  rw [hword, Nat.zero_add, List.take_succ_cons, scan, h.unfinished a b tail hword k (by omega)]

/-- Of words that are cut, all that fit are left, and what stands behind them is unfinished. -/
theorem Telling.scan_take (h : Telling encode head) (done n : ℕ) (l : List α) :
    (scan head done 0 ((l.flatMap encode).take n) = none ∧
        (l.flatMap encode).take n = (fitting encode n l).flatMap encode) ∨
      (scan head done 0 ((l.flatMap encode).take n) =
          some ⟨done + ((fitting encode n l).flatMap encode).length, none⟩ ∧
        (fitting encode n l).flatMap encode <+: (l.flatMap encode).take n) := by
  induction l generalizing done n with
  | nil =>
    left
    rw [List.flatMap_nil, List.take_nil]
    exact ⟨rfl, rfl⟩
  | cons a l ih =>
    rw [List.flatMap_cons]
    by_cases ha : (encode a).length ≤ n
    · have hcut : (encode a ++ l.flatMap encode).take n =
          encode a ++ (l.flatMap encode).take (n - (encode a).length) := by
        rw [List.take_append, List.take_of_length_le ha]
      have hfit : (fitting encode n (a :: l)).flatMap encode =
          encode a ++ (fitting encode (n - (encode a).length) l).flatMap encode := by
        rw [fitting, if_pos ha, List.flatMap_cons]
      rw [hcut, hfit, h.scan_word]
      obtain ⟨hscan, hsame⟩ | ⟨hscan, hlead⟩ :=
        ih (done + (encode a).length) (n - (encode a).length)
      · exact .inl ⟨hscan, by rw [hsame]⟩
      · right
        refine ⟨?_, (List.prefix_append_right_inj _).mpr hlead⟩
        rw [hscan, List.length_append, Nat.add_assoc]
    · have hlt : n < (encode a).length := Nat.lt_of_not_le ha
      have hcut : (encode a ++ l.flatMap encode).take n = (encode a).take n :=
        List.take_append_of_le_length (Nat.le_of_lt hlt)
      have hfit : (fitting encode n (a :: l)).flatMap encode = [] := by
        rw [fitting, if_neg ha, List.flatMap_nil]
      rw [hcut, hfit]
      obtain rfl | hpos := Nat.eq_zero_or_pos n
      · exact .inl ⟨rfl, rfl⟩
      · exact .inr ⟨h.scan_unfinished done hpos hlt, List.nil_prefix⟩

/-- Words cut after `n` symbols and trimmed are those that fit. -/
theorem Telling.trim_take (h : Telling encode head) (n : ℕ) (l : List α) :
    trim head ((l.flatMap encode).take n) = (fitting encode n l).flatMap encode := by
  unfold trim
  obtain ⟨hscan, hsame⟩ | ⟨hscan, hlead⟩ := h.scan_take 0 n l
  · rw [hscan]
    exact hsame
  · rw [hscan]
    dsimp only
    rw [Nat.zero_add]
    exact (List.prefix_iff_eq_take.mp hlead).symm

end BatleHub.Lib.CodeWords
