import BatleHub.Lib.Decimals
import BatleHub.Lib.Texts
import Mathlib.Algebra.Order.Ring.Nat
import Mathlib.Data.List.DropRight

/-!
How the values of headers are read: trimmed of blanks or of quotes, and as numbers of a
machine's width. What is written without blanks, or in quotes, is read back.
-/
namespace BatleHub.Lib.HeaderValues

section Trimming

/-- A text without what stands at its ends for which `p` holds. -/
def trimWhere (p : Char → Bool) (text : List Char) : List Char := (text.dropWhile p).rdropWhile p

/-- `str::trim`. -/
def trim (text : List Char) : List Char := trimWhere Texts.isWhiteSpace text

/-- A text in quotes. -/
def quoted (text : List Char) : List Char := '"' :: (text ++ ['"'])

theorem trimWhere_eq_self {p : Char → Bool} {text : List Char} (h : ∀ c ∈ text, p c = false) :
    trimWhere p text = text := by
  have hfront : text.dropWhile p = text := by
    cases text with
    | nil => rfl
    | cons c rest => exact List.dropWhile_cons_of_neg (by simp [h c List.mem_cons_self])
  rw [trimWhere, hfront, List.rdropWhile_eq_self_iff]
  intro hne
  simp [h _ (List.getLast_mem hne)]

theorem trim_eq_self {text : List Char} (h : ∀ c ∈ text, Texts.isWhiteSpace c = false) :
    trim text = text :=
  trimWhere_eq_self h

theorem trim_blank_cons (text : List Char) : trim (' ' :: text) = trim text := by
  unfold trim trimWhere
  rw [List.dropWhile_cons_of_pos (by decide)]

/-- Quotes around a text without quotes are trimmed away. -/
theorem trimWhere_quoted {text : List Char} (h : '"' ∉ text) :
    trimWhere (fun c => decide (c = '"')) (quoted text) = text := by
  have hfree : ∀ c ∈ text, decide (c = '"') = false := by
    intro c hc
    exact decide_eq_false fun heq => h (heq ▸ hc)
  have hfront : (quoted text).dropWhile (fun c => decide (c = '"')) =
      (text ++ ['"']).dropWhile fun c => decide (c = '"') :=
    List.dropWhile_cons_of_pos (by decide)
  cases text with
  | nil => decide
  | cons c rest =>
    have hc := hfree c List.mem_cons_self
    rw [trimWhere, hfront, List.cons_append, List.dropWhile_cons_of_neg (by simp [hc]),
      ← List.cons_append, List.rdropWhile_concat_pos _ _ _ (by decide)]
    have hself := trimWhere_eq_self hfree
    rwa [trimWhere, List.dropWhile_cons_of_neg (by simp [hc])] at hself

end Trimming

section Numbers

/-- `str::parse` of a number below `bound`: an optional plus sign and digits. -/
def parseUnsigned (bound : ℕ) (text : List Char) : Option ℕ :=
  let digits := match text with
    | '+' :: rest => rest
    | _ => text
  if digits ≠ [] ∧ digits.all Char.isDigit ∧ Decimals.value digits < bound then
    some (Decimals.value digits)
  else none

theorem parseUnsigned_decimal (bound n : ℕ) :
    parseUnsigned bound (Decimals.decimal n) = if n < bound then some n else none := by
  have hdigits : (Decimals.decimal n).all Char.isDigit = true :=
    List.all_eq_true.mpr fun c hc => Decimals.isDigit_of_mem_decimal hc
  have hsame : (match Decimals.decimal n with
      | '+' :: rest => rest
      | _ => Decimals.decimal n) = Decimals.decimal n := by
    split
    · rename_i rest heq
      have hplus := Decimals.isDigit_of_mem_decimal (heq ▸ List.mem_cons_self : '+' ∈ _)
      exact absurd hplus (by decide)
    · rfl
  unfold parseUnsigned
  rw [hsame]
  simp [Decimals.decimal_ne_nil, hdigits]

/-- Digits are no blanks. -/
theorem isWhiteSpace_of_isDigit {c : Char} (h : c.isDigit = true) :
    Texts.isWhiteSpace c = false := by
  obtain ⟨hlow, hhigh⟩ := Decimals.isDigit_bounds h
  unfold Texts.isWhiteSpace
  simp
  omega

end Numbers

end BatleHub.Lib.HeaderValues
