import Mathlib.Algebra.Order.Group.Nat
import Mathlib.Data.List.Induction

/-!
Decimal numerals as texts. A run of digits and the canonical numeral of its value differ
by leading zeros only, and canonical numerals of two numbers differ.
-/
namespace BatleHub.Lib.Decimals

/-- The canonical numeral. -/
def decimal (n : ℕ) : List Char := Nat.toDigits 10 n

/-- The number a run of digits writes. -/
def value (run : List Char) : ℕ := Nat.ofDigitChars 10 run 0

/-- A run without its leading zeros. -/
def stripZeros (run : List Char) : List Char := run.dropWhile fun c => decide (c = '0')

@[simp] theorem value_decimal (n : ℕ) : value (decimal n) = n := Nat.ofDigitChars_ten_toDigits

theorem decimal_injective : Function.Injective decimal := by
  intro m n h
  calc m = value (decimal m) := (value_decimal m).symm
    _ = value (decimal n) := by rw [h]
    _ = n := value_decimal n

theorem decimal_ne_nil (n : ℕ) : decimal n ≠ [] := Nat.toDigits_ne_nil

theorem isDigit_of_mem_decimal {n : ℕ} {c : Char} (h : c ∈ decimal n) : c.isDigit = true :=
  Nat.isDigit_of_mem_toDigits (by decide) (by decide) h

@[simp] theorem decimal_zero : decimal 0 = ['0'] := Nat.toDigits_zero 10

theorem length_decimal_le_one_iff (n : ℕ) : (decimal n).length ≤ 1 ↔ n < 10 :=
  Nat.length_toDigits_le_iff (b := 10) (by decide) Nat.one_pos

theorem length_decimal_pos (n : ℕ) : 0 < (decimal n).length :=
  List.length_pos_iff.mpr (decimal_ne_nil n)

/-- The last digit goes behind the others. -/
theorem decimal_append {n d : ℕ} (hn : 0 < n) (hd : d < 10) :
    decimal n ++ decimal d = decimal (10 * n + d) :=
  Nat.toDigits_append_toDigits (by decide) hn hd

@[simp] theorem value_nil : value [] = 0 := Nat.ofDigitChars_nil

theorem value_cons (c : Char) (run : List Char) :
    value (c :: run) = 10 ^ run.length * (c.toNat - 48) + value run := by
  unfold value
  rw [Nat.ofDigitChars_cons, Nat.ofDigitChars_eq_ofDigitChars_zero, Nat.mul_zero, Nat.zero_add]
  rfl

theorem value_concat (run : List Char) (c : Char) :
    value (run ++ [c]) = 10 * value run + (c.toNat - 48) := by
  unfold value
  rw [Nat.ofDigitChars_append, Nat.ofDigitChars_cons, Nat.ofDigitChars_nil]
  rfl

theorem value_zero_cons (run : List Char) : value ('0' :: run) = value run := by
  rw [value_cons]
  simp

theorem isDigit_bounds {c : Char} (h : c.isDigit = true) : 48 ≤ c.toNat ∧ c.toNat ≤ 57 := by
  simpa [Char.isDigit, UInt32.le_iff_toNat_le, ← Char.toNat_val] using h

theorem isLower_bounds {c : Char} (h : c.isLower = true) : 97 ≤ c.toNat ∧ c.toNat ≤ 122 := by
  have hval : (decide ('a'.val ≤ c.val) && decide (c.val ≤ 'z'.val)) = true := h
  simpa [UInt32.le_iff_toNat_le, ← Char.toNat_val] using hval

/-- A digit is the numeral of its value. -/
theorem eq_digitChar {c : Char} (h : c.isDigit = true) :
    c.toNat - 48 < 10 ∧ c = (c.toNat - 48).digitChar := by
  have hbounds := isDigit_bounds h
  have hlt : c.toNat - 48 < 10 := by omega
  refine ⟨hlt, Char.toNat_inj.mp ?_⟩
  rw [Nat.toNat_digitChar_of_lt_ten hlt]
  omega

theorem value_pos_of_head {c : Char} {run : List Char} (hc : c.isDigit = true) (hne : c ≠ '0') :
    0 < value (c :: run) := by
  rw [value_cons]
  have hdigit : 0 < c.toNat - 48 := by
    rw [Nat.pos_iff_ne_zero]
    intro hzero
    have heq := (eq_digitChar hc).2
    rw [hzero] at heq
    exact hne heq
  have hpow : 0 < 10 ^ run.length * (c.toNat - 48) := Nat.mul_pos (Nat.pow_pos (by decide)) hdigit
  omega

/-- A run that does not start with a zero is canonical. -/
theorem decimal_value_of_head {c : Char} {run : List Char}
    (hdigits : ∀ d ∈ c :: run, d.isDigit = true) (hne : c ≠ '0') :
    decimal (value (c :: run)) = c :: run := by
  induction run using List.reverseRecOn with
  | nil =>
    have hc := eq_digitChar (hdigits c List.mem_cons_self)
    have hvalue : value [c] = c.toNat - 48 := by simp [value_cons]
    rw [hvalue]
    calc decimal (c.toNat - 48) = [(c.toNat - 48).digitChar] := Nat.toDigits_of_lt_base hc.1
      _ = [c] := by rw [← hc.2]
  | append_singleton init d ih =>
    have hinit : ∀ e ∈ c :: init, e.isDigit = true := fun e he =>
      hdigits e (by rw [← List.cons_append]; exact List.mem_append_left [d] he)
    have hd := eq_digitChar (hdigits d (by simp))
    have hpos : 0 < value (c :: init) := value_pos_of_head (hinit c List.mem_cons_self) hne
    rw [← List.cons_append, value_concat, ← decimal_append hpos hd.1, ih hinit]
    congr 1
    calc decimal (d.toNat - 48) = [(d.toNat - 48).digitChar] := Nat.toDigits_of_lt_base hd.1
      _ = [d] := by rw [← hd.2]

/-- What the leading zeros leave: nothing of a zero, else the canonical numeral. -/
theorem stripZeros_eq {run : List Char} (h : ∀ c ∈ run, c.isDigit = true) :
    stripZeros run = if value run = 0 then [] else decimal (value run) := by
  induction run with
  | nil => rfl
  | cons c run ih =>
    by_cases hc : c = '0'
    · subst hc
      have hstrip : stripZeros ('0' :: run) = stripZeros run := rfl
      rw [hstrip, value_zero_cons, ih (fun d hd => h d (List.mem_cons_of_mem _ hd))]
    · have hstrip : stripZeros (c :: run) = c :: run := by
        unfold stripZeros
        rw [List.dropWhile_cons_of_neg (by simpa using hc)]
      have hpos : 0 < value (c :: run) := value_pos_of_head (h c List.mem_cons_self) hc
      rw [hstrip, if_neg (Nat.pos_iff_ne_zero.mp hpos), decimal_value_of_head h hc]

theorem length_stripZeros_le (run : List Char) : (stripZeros run).length ≤ run.length :=
  (List.dropWhile_suffix _).length_le

end BatleHub.Lib.Decimals
