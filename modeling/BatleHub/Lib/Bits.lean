import Mathlib.Algebra.Order.Ring.Nat
import Mathlib.Data.List.GetD
import Mathlib.Data.Nat.Notation

/-!
Bits of a list of fixed-width words, the lowest word first. Two lists of one width and one
length are equal when their bits are, and a word is written into a list by setting its bits.
The same bits may be read as words of another width.
-/
namespace BatleHub.Lib.Bits

/-- Bit `k` of a list of words of `w` bits; nothing is set past the end. -/
def bitAt (w : ℕ) (words : List ℕ) (k : ℕ) : Bool := (words.getD (k / w) 0).testBit (k % w)

/-- Every word fits its width. -/
def Fit (w : ℕ) (words : List ℕ) : Prop := ∀ x ∈ words, x < 2 ^ w

theorem testBit_eq_false_of_lt {w x t : ℕ} (hx : x < 2 ^ w) (ht : w ≤ t) :
    x.testBit t = false :=
  Nat.testBit_lt_two_pow (Nat.lt_of_lt_of_le hx (Nat.pow_le_pow_right (by decide) ht))

theorem Fit.getD_lt {w : ℕ} {words : List ℕ} (h : Fit w words) (i : ℕ) :
    words.getD i 0 < 2 ^ w := by
  rw [List.getD_eq_getElem?_getD]
  cases hget : words[i]? with
  | none => exact Nat.two_pow_pos w
  | some x => exact h x (List.mem_of_getElem? hget)

section Reading
variable {w : ℕ} {words : List ℕ}

theorem bitAt_word {t : ℕ} (ht : t < w) (i : ℕ) :
    bitAt w words (w * i + t) = (words.getD i 0).testBit t := by
  unfold bitAt
  rw [Nat.mul_add_div (by omega), Nat.div_eq_of_lt ht, Nat.add_zero, Nat.mul_add_mod,
    Nat.mod_eq_of_lt ht]

theorem bitAt_of_length_le {k : ℕ} (h : w * words.length ≤ k) (hw : 0 < w) :
    bitAt w words k = false := by
  have hlen : words.length ≤ k / w := (Nat.le_div_iff_mul_le hw).mpr (by rwa [Nat.mul_comm])
  unfold bitAt
  rw [List.getD_eq_default _ _ hlen, Nat.zero_testBit]

theorem bitAt_nil (k : ℕ) : bitAt w [] k = false := by
  unfold bitAt
  rw [List.getD_nil, Nat.zero_testBit]

/-- The first word's bits come first. -/
theorem bitAt_cons {x : ℕ} (hx : x < 2 ^ w) (hw : 0 < w) (k : ℕ) :
    bitAt w (x :: words) k = (x.testBit k || (decide (w ≤ k) && bitAt w words (k - w))) := by
  by_cases hk : w ≤ k
  · obtain ⟨r, rfl⟩ := Nat.exists_eq_add_of_le hk
    rw [testBit_eq_false_of_lt hx hk, Bool.false_or, decide_eq_true hk, Bool.true_and,
      Nat.add_sub_cancel_left]
    unfold bitAt
    rw [Nat.add_div_left _ hw, Nat.add_mod_left, List.getD_cons_succ]
  · have hlt : k < w := Nat.lt_of_not_le hk
    rw [decide_eq_false hk, Bool.false_and, Bool.or_false]
    unfold bitAt
    rw [Nat.div_eq_of_lt hlt, Nat.mod_eq_of_lt hlt, List.getD_cons_zero]

/-- Words are told apart by their bits. -/
theorem eq_of_bitAt {other : List ℕ} (hlen : words.length = other.length) (hfit : Fit w words)
    (hother : Fit w other)
    (h : ∀ k < w * words.length, bitAt w words k = bitAt w other k) : words = other := by
  apply List.ext_getElem hlen
  intro i hi hi'
  apply Nat.eq_of_testBit_eq
  intro t
  by_cases ht : t < w
  · have hbound : w * i + t < w * words.length := by
      calc
        w * i + t < w * i + w := Nat.add_lt_add_left ht _
        _ = w * (i + 1) := (Nat.mul_succ w i).symm
        _ ≤ w * words.length := Nat.mul_le_mul_left w hi
    have hbit := h (w * i + t) hbound
    rw [bitAt_word ht, bitAt_word ht] at hbit
    rwa [List.getD_eq_getElem _ _ hi, List.getD_eq_getElem _ _ hi'] at hbit
  · have hle : w ≤ t := Nat.le_of_not_lt ht
    rw [testBit_eq_false_of_lt (hfit _ (List.getElem_mem hi)) hle,
      testBit_eq_false_of_lt (hother _ (List.getElem_mem hi')) hle]

end Reading

section Writing
variable {w : ℕ} {words : List ℕ}

/-- What is or-ed into a word is or-ed into its bits. -/
theorem bitAt_set_or {i x y : ℕ} (hget : words[i]? = some x) (k : ℕ) :
    bitAt w (words.set i (x ||| y)) k =
      (bitAt w words k || (decide (k / w = i) && y.testBit (k % w))) := by
  obtain ⟨hi, hx⟩ := List.getElem?_eq_some_iff.mp hget
  unfold bitAt
  by_cases hk : k / w = i
  · rw [decide_eq_true hk, Bool.true_and, hk, List.getD_eq_getElem?_getD,
      List.getElem?_set_self hi, Option.getD_some, List.getD_eq_getElem _ _ hi, hx,
      Nat.testBit_or]
  · rw [decide_eq_false hk, Bool.false_and, Bool.or_false, List.getD_eq_getElem?_getD,
      List.getElem?_set_ne (Ne.symm hk), ← List.getD_eq_getElem?_getD]

end Writing

section Straddling
variable {w : ℕ}

/-- A value at an offset, as what falls into the word of the offset and into the next. -/
theorem testBit_straddle {d v : ℕ} (hd : d < 2 ^ v) (hv : v ≤ w) (hw : 0 < w) (o k : ℕ) :
    (decide (o ≤ k) && d.testBit (k - o)) =
      ((decide (k / w = o / w) && (decide (o % w ≤ k % w) && d.testBit (k % w - o % w))) ||
        (decide (k / w = o / w + 1) && d.testBit (w - o % w + k % w))) := by
  have ho : w * (o / w) + o % w = o := Nat.div_add_mod o w
  have hk : w * (k / w) + k % w = k := Nat.div_add_mod k w
  have hoff : o % w < w := Nat.mod_lt o hw
  have hbit : k % w < w := Nat.mod_lt k hw
  by_cases hsame : k / w = o / w
  · rw [hsame] at hk
    have hne : ¬ k / w = o / w + 1 := by omega
    have hiff : decide (o ≤ k) = decide (o % w ≤ k % w) := decide_eq_decide.mpr (by omega)
    have hsub : k - o = k % w - o % w := by omega
    rw [decide_eq_true hsame, decide_eq_false hne, Bool.true_and, Bool.false_and, Bool.or_false,
      hiff, hsub]
  · rw [decide_eq_false hsame, Bool.false_and, Bool.false_or]
    by_cases hnext : k / w = o / w + 1
    · rw [hnext, Nat.mul_succ] at hk
      have hle : o ≤ k := by omega
      have hsub : k - o = w - o % w + k % w := by omega
      rw [decide_eq_true hnext, decide_eq_true hle, hsub]
    · rw [decide_eq_false hnext, Bool.false_and]
      by_cases hle : o ≤ k
      · -- two words further on, past the value's own width
        have hword : o / w + 2 ≤ k / w := by
          have hmono : o / w ≤ k / w := Nat.div_le_div_right hle
          omega
        have hstart : w * (o / w) + 2 * w ≤ w * (k / w) := by
          calc
            w * (o / w) + 2 * w = w * (o / w + 2) := by rw [Nat.mul_add, Nat.mul_comm 2 w]
            _ ≤ w * (k / w) := Nat.mul_le_mul_left w hword
        rw [testBit_eq_false_of_lt hd (by omega), Bool.and_false]
      · rw [decide_eq_false hle, Bool.false_and]

/-- The bits from an offset on, read out of two neighbouring words. -/
theorem testBit_window {words : List ℕ} (hfit : Fit w words) {t : ℕ} (ht : t < w) (o : ℕ) :
    ((words.getD (o / w) 0 >>> (o % w)) ||| (words.getD (o / w + 1) 0 <<< (w - o % w))).testBit t =
      bitAt w words (o + t) := by
  have hw : 0 < w := by omega
  have hoff : o % w < w := Nat.mod_lt o hw
  have hpos : o + t = w * (o / w) + (o % w + t) := by
    rw [← Nat.add_assoc, Nat.div_add_mod]
  rw [Nat.testBit_or, Nat.testBit_shiftRight, Nat.testBit_shiftLeft]
  by_cases hin : o % w + t < w
  · have hlow : ¬ t ≥ w - o % w := by omega
    rw [hpos, bitAt_word hin, decide_eq_false hlow, Bool.false_and, Bool.or_false]
  · have hhigh : t ≥ w - o % w := by omega
    have hnext : o + t = w * (o / w + 1) + (t - (w - o % w)) := by
      rw [hpos, Nat.mul_succ]
      omega
    have hlow : (words.getD (o / w) 0).testBit (o % w + t) = false :=
      testBit_eq_false_of_lt (hfit.getD_lt _) (by omega)
    rw [hlow, Bool.false_or, decide_eq_true hhigh, Bool.true_and, hnext,
      bitAt_word (show t - (w - o % w) < w by omega)]

end Straddling

end BatleHub.Lib.Bits
