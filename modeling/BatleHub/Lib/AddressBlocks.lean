import BatleHub.Lib.Bits

/-!
Blocks of addresses. An address is a list of words of one width, the highest first, and a
block is the addresses that agree with its base on a number of leading bits. A block is left
by comparing the numbers without their last bits, or word by word.
-/
namespace BatleHub.Lib.AddressBlocks

open Bits

/-- The number that the words spell. -/
def number (w : ℕ) : List ℕ → ℕ
  | [] => 0
  | x :: rest => x * 2 ^ (w * rest.length) + number w rest

/-- The first `len` of `width` bits are the same. -/
def SameLead (width len n m : ℕ) : Prop := n / 2 ^ (width - len) = m / 2 ^ (width - len)

/-- The words agree with the base on the first `len` bits. -/
def Agrees (w : ℕ) : (base : List ℕ) → (len : ℕ) → (words : List ℕ) → Prop
  | y :: base, len, x :: words =>
    if w ≤ len then x = y ∧ Agrees w base (len - w) words
    else x / 2 ^ (w - len) = y / 2 ^ (w - len)
  | _, _, _ => True

variable {w : ℕ}

theorem number_lt {words : List ℕ} (h : Fit w words) : number w words < 2 ^ (w * words.length) := by
  induction words with
  | nil => exact Nat.two_pow_pos _
  | cons x rest ih =>
    have hx : x < 2 ^ w := h x List.mem_cons_self
    have hrest := ih fun y hy => h y (List.mem_cons_of_mem _ hy)
    calc
      number w (x :: rest) < x * 2 ^ (w * rest.length) + 2 ^ (w * rest.length) :=
        Nat.add_lt_add_left hrest _
      _ = (x + 1) * 2 ^ (w * rest.length) := by rw [Nat.succ_mul]
      _ ≤ 2 ^ w * 2 ^ (w * rest.length) := Nat.mul_le_mul_right _ hx
      _ = 2 ^ (w * (x :: rest).length) := by
        rw [← Nat.pow_add, List.length_cons, Nat.mul_succ, Nat.add_comm]

theorem mul_add_div_of_lt {b m : ℕ} (x : ℕ) (hm : m < b) : (x * b + m) / b = x := by
  rw [Nat.mul_comm, Nat.mul_add_div (by omega), Nat.div_eq_of_lt hm, Nat.add_zero]

section Words
variable {x y : ℕ} {words base : List ℕ} (hlength : words.length = base.length)
  (hwords : Fit w words) (hbase : Fit w base)
include hlength hwords hbase

/-- Bits of the first word only. -/
theorem sameLead_of_short {len : ℕ} (hlen : len ≤ w) :
    SameLead (w * (base.length + 1)) len (number w (x :: words)) (number w (y :: base)) ↔
      x / 2 ^ (w - len) = y / 2 ^ (w - len) := by
  have hexp : w * (base.length + 1) - len = w * base.length + (w - len) := by
    rw [Nat.mul_succ]
    omega
  have hx : number w words < 2 ^ (w * base.length) := hlength ▸ number_lt hwords
  unfold SameLead number
  rw [hexp, Nat.pow_add, ← Nat.div_div_eq_div_mul, ← Nat.div_div_eq_div_mul, hlength,
    mul_add_div_of_lt x hx, mul_add_div_of_lt y (number_lt hbase)]

/-- The first word and bits of the rest. -/
theorem sameLead_of_long {len : ℕ} (hlen : len ≤ w * base.length) :
    SameLead (w * (base.length + 1)) (w + len) (number w (x :: words)) (number w (y :: base)) ↔
      x = y ∧ SameLead (w * base.length) len (number w words) (number w base) := by
  have hexp : w * (base.length + 1) - (w + len) = w * base.length - len := by
    rw [Nat.mul_succ]
    omega
  have hsplit : 2 ^ (w * base.length) = 2 ^ len * 2 ^ (w * base.length - len) := by
    rw [← Nat.pow_add]
    congr 1
    omega
  have hpos := Nat.two_pow_pos (w * base.length - len)
  have hlow {n : ℕ} (hn : n < 2 ^ (w * base.length)) :
      n / 2 ^ (w * base.length - len) < 2 ^ len :=
    Nat.div_lt_of_lt_mul (by rwa [Nat.mul_comm, ← hsplit])
  have hsum (z n : ℕ) : (z * 2 ^ (w * base.length) + n) / 2 ^ (w * base.length - len) =
      z * 2 ^ len + n / 2 ^ (w * base.length - len) := by
    rw [hsplit, ← Nat.mul_assoc, Nat.add_comm, Nat.add_mul_div_right _ _ hpos, Nat.add_comm]
  have hx := hlow (hlength ▸ number_lt hwords)
  have hy := hlow (number_lt hbase)
  unfold SameLead
  rw [hexp, number, number, hlength, hsum, hsum]
  constructor
  · intro h
    have hwordEq : x = y := by
      rw [← mul_add_div_of_lt x hx, h, mul_add_div_of_lt y hy]
    subst hwordEq
    exact ⟨rfl, Nat.add_left_cancel h⟩
  · intro h
    rw [h.1, h.2]

end Words

/-- A block is left at a number exactly where it is left at a word. -/
theorem sameLead_iff_agrees {words base : List ℕ} {len : ℕ} (hlength : words.length = base.length)
    (hwords : Fit w words) (hbase : Fit w base) (hlen : len ≤ w * base.length) :
    SameLead (w * base.length) len (number w words) (number w base) ↔ Agrees w base len words := by
  induction base generalizing words len with
  | nil =>
    obtain rfl : words = [] := List.eq_nil_of_length_eq_zero hlength
    exact iff_of_true rfl trivial
  | cons y base ih =>
    cases words with
    | nil => cases hlength
    | cons x words =>
      have hlength' : words.length = base.length := Nat.succ.inj hlength
      have hwords' : Fit w words := fun z hz => hwords z (List.mem_cons_of_mem _ hz)
      have hbase' : Fit w base := fun z hz => hbase z (List.mem_cons_of_mem _ hz)
      unfold Agrees
      by_cases hcase : w ≤ len
      · obtain ⟨rest, rfl⟩ := Nat.exists_eq_add_of_le hcase
        have hrest : rest ≤ w * base.length := by
          rw [List.length_cons, Nat.mul_succ] at hlen
          omega
        rw [if_pos hcase, List.length_cons, sameLead_of_long hlength' hwords' hbase' hrest,
          ih hlength' hwords' hbase' hrest, Nat.add_sub_cancel_left]
      · rw [if_neg hcase, List.length_cons,
          sameLead_of_short hlength' hwords' hbase' (by omega)]

/-- Masking the low bits away keeps the high ones. -/
theorem and_mask {x k : ℕ} (hx : x < 2 ^ w) (hk : k ≤ w) :
    x &&& (2 ^ w - 2 ^ k) = 2 ^ k * (x / 2 ^ k) := by
  have hmask : 2 ^ w - 2 ^ k = 2 ^ k * (2 ^ (w - k) - 1) := by
    rw [Nat.mul_sub_one, ← Nat.pow_add, Nat.add_sub_cancel' hk]
  have hhigh : x / 2 ^ k < 2 ^ (w - k) :=
    Nat.div_lt_of_lt_mul (by rwa [← Nat.pow_add, Nat.add_sub_cancel' hk])
  apply Nat.eq_of_testBit_eq
  intro i
  rw [hmask, Nat.testBit_and, Nat.testBit_two_pow_mul, Nat.testBit_two_pow_mul,
    Nat.testBit_div_two_pow, Nat.testBit_two_pow_sub_one]
  by_cases hi : k ≤ i
  · rw [decide_eq_true hi, Bool.true_and, Bool.true_and, Nat.sub_add_cancel hi]
    by_cases hbit : i - k < w - k
    · rw [decide_eq_true hbit, Bool.and_true]
    · rw [testBit_eq_false_of_lt hx (by omega), Bool.false_and]
  · rw [decide_eq_false hi, Bool.false_and, Bool.false_and, Bool.and_false]

/-- A masked word is a constant when its high bits are the constant's. -/
theorem and_mask_eq_iff {x k q : ℕ} (hx : x < 2 ^ w) (hk : k ≤ w) :
    x &&& (2 ^ w - 2 ^ k) = 2 ^ k * q ↔ x / 2 ^ k = q := by
  rw [and_mask hx hk]
  exact Nat.mul_right_inj (Nat.two_pow_pos k).ne'

end BatleHub.Lib.AddressBlocks
